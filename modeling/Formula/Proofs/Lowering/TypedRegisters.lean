import Formula.Proofs.Lowering.Soundness
import Formula.Proofs.Lowering.StraightLine

/-!
# Lowered code is typed

Every register of lowered code has a type: the one that the instruction which writes it gives, from
registers before it whose types suit the instruction. A settled tree is lowered to typed code, and on
arguments of the right types each register that a run has written holds a value of its type.

## Main definitions

* `Builder.Gives`: an instruction gives a value of a type, from registers of given types.
* `Builder.Typed`: the types of the registers that have been written.

## Main results

* `Settled.typed`: a settled tree is lowered to typed code, and its result has the type asked for.
* `Builder.Typed.holds`: what the registers hold, at every moment of a run.
-/

namespace Formula

namespace Builder

/-- The instruction puts a value of the type `t` into `dest`, if the registers that it reads hold
values of the given types. A comparison is tolerant just if it compares numbers. -/
inductive Gives (params : List Parameter) (b : Builder) (types : List ValueType) (dest : Nat) :
    ValueType → Instruction → Prop
  | loadLiteral {index : Nat} {v : Value} (h : b.literals[index]? = some v) :
      Gives params b types dest v.type (.loadLiteral dest index)
  | loadParameter {index : Nat} {p : Parameter} {t : ValueType} (hp : params[index]? = some p)
      (hown : p.supported = TypeMask.of t) (ht : t ≠ .unknown) :
      Gives params b types dest t (.loadParameter dest index)
  | convert {source : Nat} {own t : ValueType} (h : types[source]? = some own)
      (hconv : (conversionCost? own t).isSome) : Gives params b types dest t (.convert dest source t)
  | operate {op : Operation} {left right : Nat} {l r t : ValueType} (hl : types[left]? = some l)
      (hr : types[right]? = some r) (h : op.result? l r = some t) :
      Gives params b types dest t (.operate op dest left right)
  | compare {op : Comparison} {left right : Nat} {l r t : ValueType} (hl : types[left]? = some l)
      (hr : types[right]? = some r) (h : op.result? l r = some t) :
      Gives params b types dest t (.compare op dest left right l.isNumber)
  | unary {op : UnaryOp} {source : Nat} {own t : ValueType} (h : types[source]? = some own)
      (hresult : op.result? own = some t) : Gives params b types dest t (.unary op dest source)
  | call {index : Nat} {f : Function} {args : List Nat} {s : Signature}
      (hcall : b.calls[index]? = some ⟨dest, f, args⟩) (hs : s ∈ f.signatures)
      (hargs : List.Forall₂ (fun r t => types[r]? = some t) args s.args) :
      Gives params b types dest s.result (.call index)

/-- What instructions give is kept when more are emitted. -/
theorem Gives.of_emits {params : List Parameter} {b b' : Builder} {types : List ValueType}
    {code : List Instruction} {dest : Nat} {t : ValueType} {i : Instruction}
    (h : b.Gives params types dest t i) (he : b.Emits b' code) : b'.Gives params types dest t i := by
  cases h with
  | loadLiteral h => exact .loadLiteral (he.literals _ _ h)
  | loadParameter hp hown ht => exact .loadParameter hp hown ht
  | convert h hconv => exact .convert h hconv
  | operate hl hr h => exact .operate hl hr h
  | compare hl hr h => exact .compare hl hr h
  | unary h hresult => exact .unary h hresult
  | call hcall hs hargs => exact .call (he.calls _ _ hcall) hs hargs

/-- The registers that have been written have the given types. -/
structure Typed (params : List Parameter) (b : Builder) (types : List ValueType) : Prop where
  size : b.instructions.size = types.length
  registers : b.registers = types.length
  sound : b.Sound
  gives : ∀ (k : Nat) i t, b.instructions[k]? = some i → types[k]? = some t →
    b.Gives params (types.take k) k t i

theorem typed_empty (params : List Parameter) : ({} : Builder).Typed params [] where
  size := rfl
  registers := rfl
  sound := sound_empty
  gives k i t hi := by simp at hi

theorem getElem?_of_prefix {types types' : List ValueType} (h : types <+: types') {r : Nat}
    {t : ValueType} (hr : types[r]? = some t) : types'[r]? = some t := by
  obtain ⟨hlt, rfl⟩ := List.getElem?_eq_some_iff.mp hr
  exact List.prefix_iff_getElem?.mp h r hlt

section

variable {params : List Parameter} {b b' : Builder} {types : List ValueType}

/-- An instruction that gives a value of the type `t` in the next register. -/
theorem Typed.step {i : Instruction} {t : ValueType} (hb : b.Typed params types)
    (he : b.Emits b' [i]) (hi : b'.Gives params types b.registers t i) (hsound : b'.Sound)
    (hregisters : b'.registers = b.registers + 1) : b'.Typed params (types ++ [t]) where
  size := by
    have hlength := congrArg List.length he.instructions
    rw [List.length_append, Array.length_toList, Array.length_toList] at hlength
    rw [hlength, hb.size, List.length_append]
    rfl
  registers := by rw [hregisters, hb.registers, List.length_append]; rfl
  sound := hsound
  gives k j u hj hu := by
    rw [← Array.getElem?_toList, he.instructions] at hj
    have hlength : b.instructions.toList.length = types.length := hb.size
    rcases Nat.lt_trichotomy k types.length with hlt | rfl | hgt
    · rw [List.getElem?_append_left (hlength ▸ hlt), Array.getElem?_toList] at hj
      rw [List.getElem?_append_left hlt] at hu
      rw [List.take_append_of_le_length hlt.le]
      exact (hb.gives k j u hj hu).of_emits he
    · rw [← hlength, List.getElem?_concat_length] at hj
      rw [List.getElem?_concat_length] at hu
      obtain rfl := Option.some.inj hj
      obtain rfl := Option.some.inj hu
      rw [List.take_left, ← hb.registers]
      exact hi
    · rw [List.getElem?_eq_none (by rw [List.length_append]; exact hgt)] at hu
      cases hu

/-- A conversion gives the type that it converts to. -/
theorem Typed.widen (hb : b.Typed params types) {register result : Nat} {own target : ValueType}
    (hown : types[register]? = some own) (hconv : (conversionCost? own target).isSome)
    (h : b.widen register own target = .ok (result, b')) :
    ∃ types', types <+: types' ∧ b'.Typed params types' ∧ types'[result]? = some target := by
  rw [Builder.widen] at h
  split at h
  · next heq =>
    obtain ⟨rfl, rfl⟩ := Prod.mk.inj (Except.ok.inj h)
    exact ⟨types, List.prefix_refl types, hb, heq ▸ hown⟩
  · obtain ⟨⟨dest, b₁⟩, hdest, h⟩ := bind_eq_ok_iff.mp h
    obtain ⟨rfl, rfl⟩ := Prod.mk.inj (Except.ok.inj h)
    have he := (emits_allocate hdest).trans (emits_emit b₁ (.convert dest register target))
    obtain ⟨rfl, rfl⟩ := allocate_eq_ok hdest
    refine ⟨types ++ [target], List.prefix_append .., hb.step he (.convert hown hconv) hb.sound rfl, ?_⟩
    rw [hb.registers, List.getElem?_concat_length]

/-- An application of a head gives the result type of its overload. -/
theorem Typed.emitApplication (hb : b.Typed params types) {head : Head} {operands : Nat}
    {s : Signature} (hs : s ∈ head.signatures operands) {registers : List Nat}
    (hregisters : List.Forall₂ (fun r t => types[r]? = some t) registers s.args) {dest : Nat}
    {b₁ : Builder} (hdest : b.allocate = .ok (dest, b₁))
    (h : b₁.emitApplication head s dest registers = .ok b') :
    b'.Typed params (types ++ [s.result]) ∧ (types ++ [s.result])[dest]? = some s.result := by
  have hallocate := emits_allocate hdest
  obtain ⟨rfl, rfl⟩ := allocate_eq_ok hdest
  refine ⟨?_, by rw [hb.registers, List.getElem?_concat_length]⟩
  match head with
  | .unary op =>
    obtain ⟨t, hargs, hresult⟩ := UnaryOp.result?_of_mem hs
    rw [hargs] at hregisters
    obtain _ | ⟨hsource, _ | _⟩ := hregisters
    obtain rfl := Except.ok.inj h
    exact hb.step (hallocate.trans (emits_emit ..)) (.unary hsource hresult) hb.sound rfl
  | .binary op =>
    obtain ⟨l, r, hargs, hresult⟩ := BinaryOp.result?_of_mem hs
    have hnumbers : s.comparesNumbers = l.isNumber := by
      rw [Signature.comparesNumbers, hargs, List.headD_cons]
    rw [hargs] at hregisters
    obtain _ | ⟨hleft, _ | ⟨hright, _ | _⟩⟩ := hregisters
    cases op with
    | operate op =>
      obtain rfl := Except.ok.inj h
      exact hb.step (hallocate.trans (emits_emit ..)) (.operate hleft hright hresult) hb.sound rfl
    | compare op =>
      obtain rfl := Except.ok.inj h
      refine hb.step (hallocate.trans (emits_emit ..)) ?_ hb.sound rfl
      rw [hnumbers]
      exact .compare hleft hright hresult
  | .call f =>
    obtain ⟨⟨place, b₂⟩, hcall, h⟩ := bind_eq_ok_iff.mp h
    obtain rfl := Except.ok.inj h
    have he := hallocate.trans ((emits_addCall hcall).trans (emits_emit b₂ (.call place)))
    obtain ⟨rfl, rfl⟩ := addCall_eq_ok hcall
    have hfound : (b.calls.push ⟨b.registers, f, registers⟩)[b.calls.size]? =
        some ⟨b.registers, f, registers⟩ := by simp
    exact hb.step he (.call hfound (List.mem_filter.mp hs).1 hregisters) hb.sound rfl

end

end Builder

/-! ### Lowering -/

namespace Node

/-- Operands that are each lowered to typed code are so in turn. -/
theorem typed_lowerAll {params : List Parameter} {targets : List ValueType} {nodes : List Node}
    (hlen : targets.length = nodes.length)
    (ih : ∀ (i : Nat) t n, targets[i]? = some t → nodes[i]? = some n → ∀ {b b' types result},
      b.Typed params types → n.lower params t b = .ok (result, b') →
      ∃ types', types <+: types' ∧ b'.Typed params types' ∧ types'[result]? = some t)
    {b b' : Builder} {types : List ValueType} {results : List Nat} (hb : b.Typed params types)
    (h : lowerAll params targets nodes b = .ok (results, b')) :
    ∃ types', types <+: types' ∧ b'.Typed params types' ∧
      List.Forall₂ (fun r t => types'[r]? = some t) results targets := by
  induction nodes generalizing targets b types results with
  | nil =>
    obtain rfl := List.eq_nil_of_length_eq_zero hlen
    obtain ⟨rfl, rfl⟩ := Prod.mk.inj (Except.ok.inj h)
    exact ⟨types, List.prefix_refl types, hb, .nil⟩
  | cons n rest hrest =>
    cases targets with
    | nil => cases hlen
    | cons target targets =>
      rw [lowerAll] at h
      obtain ⟨⟨r, b₁⟩, hn, h⟩ := bind_eq_ok_iff.mp h
      obtain ⟨⟨rs, b₂⟩, htail, h⟩ := bind_eq_ok_iff.mp h
      obtain ⟨rfl, rfl⟩ := Prod.mk.inj (Except.ok.inj h)
      obtain ⟨types₁, hle₁, hb₁, hr⟩ := ih 0 target n rfl rfl hb hn
      obtain ⟨types₂, hle₂, hb₂, hrs⟩ := hrest (by simpa using hlen)
        (fun i t m ht hm => ih (i + 1) t m (by simpa using ht) (by simpa using hm)) hb₁ htail
      exact ⟨types₂, hle₁.trans hle₂, hb₂, List.Forall₂.cons (Builder.getElem?_of_prefix hle₂ hr) hrs⟩

end Node

/-- A settled tree is lowered to typed code, and its result has the type asked for. -/
theorem Settled.typed {params : List Parameter} {target : ValueType} {node : Node}
    (h : Settled params target node) {b b' : Builder} {types : List ValueType} {result : Nat}
    (hb : b.Typed params types) (hlower : node.lower params target b = .ok (result, b')) :
    ∃ types', types <+: types' ∧ b'.Typed params types' ∧ types'[result]? = some target := by
  induction h generalizing b b' types result with
  | @constant target v text hconv =>
    obtain ⟨w, hw, rfl⟩ := Value.exists_convert hconv
    simp only [Node.lower, hw] at hlower
    obtain ⟨⟨place, b₁⟩, hliteral, hlower⟩ := bind_eq_ok_iff.mp hlower
    obtain ⟨⟨dest, b₂⟩, hdest, hlower⟩ := bind_eq_ok_iff.mp hlower
    obtain ⟨rfl, rfl⟩ := Prod.mk.inj (Except.ok.inj hlower)
    obtain ⟨hsound, he, hplace, hregisters, -, -⟩ := Builder.addLiteral_eq_ok hb.sound hliteral
    -- the table may hold the literal with another sign of a zero
    obtain ⟨u, hu, hcanonical⟩ := hsound _ _ hplace
    have htype : u.type = w.type := by
      rw [← Value.type_canonical u, hcanonical, Value.type_canonical]
    have hemits := he.trans
      ((Builder.emits_allocate hdest).trans (Builder.emits_emit b₂ (.loadLiteral dest place)))
    obtain ⟨rfl, rfl⟩ := Builder.allocate_eq_ok hdest
    refine ⟨types ++ [w.type], List.prefix_append .., hb.step hemits ?_ hsound ?_, ?_⟩
    · rw [hregisters, ← htype]
      exact .loadLiteral hu
    · exact congrArg (· + 1) hregisters
    · rw [hregisters, hb.registers, List.getElem?_concat_length]
  | @parameter target own id p hp hown hconv =>
    have hne := (ne_unknown_of_conversionCost? hconv).1
    rw [Node.lower] at hlower
    obtain ⟨place, hindex, hload⟩ := bind_eq_ok_iff.mp hlower
    obtain ⟨-, rfl⟩ := Builder.index_eq_ok_iff.mp hindex
    rw [hp] at hload
    obtain ⟨⟨dest, b₁⟩, hdest, hwiden⟩ := bind_eq_ok_iff.mp hload
    simp only [hown, TypeMask.single?_of hne] at hwiden
    have hemits :=
      (Builder.emits_allocate hdest).trans (Builder.emits_emit b₁ (.loadParameter dest place))
    obtain ⟨rfl, rfl⟩ := Builder.allocate_eq_ok hdest
    have hload := hb.step hemits (.loadParameter hp hown hne) hb.sound rfl
    obtain ⟨types', hle, hb', hresult⟩ := hload.widen
      (by rw [hb.registers, List.getElem?_concat_length]) hconv hwiden
    exact ⟨types', (List.prefix_append ..).trans hle, hb', hresult⟩
  | @apply target head operands typing s hcount hs hselected hconv _ ih =>
    simp only [Node.lower, hselected] at hlower
    obtain ⟨⟨registers, b₁⟩, hall, hlower⟩ := bind_eq_ok_iff.mp hlower
    obtain ⟨⟨dest, b₂⟩, hdest, hlower⟩ := bind_eq_ok_iff.mp hlower
    obtain ⟨b₃, hemit, hwiden⟩ := bind_eq_ok_iff.mp hlower
    obtain ⟨types₁, hle₁, hb₁, hregisters⟩ := Node.typed_lowerAll (Head.length_args hcount hs)
      (fun i t n ht hn _ _ _ _ => ih i t n ht hn) hb hall
    obtain ⟨hb₃, hown⟩ := hb₁.emitApplication hs hregisters hdest hemit
    obtain ⟨types', hle, hb', hresult⟩ := hb₃.widen hown hconv hwiden
    exact ⟨types', hle₁.trans ((List.prefix_append ..).trans hle), hb', hresult⟩

/-! ### Running -/

/-- The registers hold values of the given types. -/
def Holds (types : List ValueType) (registers : Array Value) : Prop :=
  ∀ (r : Nat) t, types[r]? = some t → ∃ v, registers[r]? = some v ∧ v.type = t

section

variable {params : List Parameter} {args : List Value} {types : List ValueType}
  {registers : Array Value}

theorem Holds.read (h : Holds types registers) {r : Nat} {t : ValueType} (hr : types[r]? = some t) :
    ∃ v, Program.read registers r = .ok v ∧ v.type = t := by
  obtain ⟨v, hv, ht⟩ := h r t hr
  exact ⟨v, read_eq_ok hv, ht⟩

theorem Holds.mapM_read (h : Holds types registers) {rs : List Nat} {ts : List ValueType}
    (hrs : List.Forall₂ (fun r t => types[r]? = some t) rs ts) :
    ∃ values, rs.mapM (Program.read registers) = .ok values ∧ values.map Value.type = ts := by
  induction hrs with
  | nil => exact ⟨[], rfl, rfl⟩
  | @cons r t rs ts hr _ ih =>
    obtain ⟨v, hv, rfl⟩ := h r t hr
    obtain ⟨values, hvalues, rfl⟩ := ih
    exact ⟨v :: values, mapM_read_cons.mpr ⟨v, values, hv, hvalues, rfl⟩, rfl⟩

theorem Fits.type_eq {ε : Type} {admitted : ε → Bool} {t : ValueType} {outcome : Except ε Value}
    (h : Fits admitted t outcome) {v : Value} (hv : outcome = .ok v) : v.type = t := by
  rwa [hv] at h

theorem Program.eq_ok_of_lift {α : Type} {outcome : Except OperationFault α} {a : α}
    (h : lift outcome = .ok a) : outcome = .ok a := by
  cases outcome with
  | error fault => cases h
  | ok b => exact congrArg Except.ok (Except.ok.inj h)

/-- An instruction puts a value of the type that it gives where it is said to. -/
theorem Builder.Gives.assigns {b : Builder} {dest : Nat} {t : ValueType} {i : Instruction}
    (h : b.Gives params types dest t i) (hargs : Supplies params args)
    (hregisters : Holds types registers) {result : Nat} {tolerance : Option Tolerance.Kind}
    {registry : Registry} {draws : Draws} {d : Nat} {v : Value}
    (heffect : (b.finish result tolerance).effect registry draws args registers i =
      .ok (.assign d v)) :
    d = dest ∧ v.type = t := by
  have hassign {d' : Nat} {w : Value}
      (h : (.ok (.assign d' w) : Except MachineFault Program.Effect) = .ok (.assign d v)) :
      d = d' ∧ w = v := by
    obtain ⟨rfl, rfl⟩ := Program.Effect.assign.inj (Except.ok.inj h)
    exact ⟨rfl, rfl⟩
  have hlift {d' : Nat} {outcome : Except OperationFault Value}
      (h : (Program.lift outcome >>= fun w => .ok (Program.Effect.assign d' w)) =
        .ok (.assign d v)) : d = d' ∧ outcome = .ok v := by
    obtain ⟨w, hw, hrest⟩ := bind_eq_ok_iff.mp h
    obtain ⟨rfl, rfl⟩ := hassign hrest
    exact ⟨rfl, Program.eq_ok_of_lift hw⟩
  cases h with
  | @loadLiteral index w h =>
    have hfound : (b.finish result tolerance).literals[index]? = some w := h
    rw [Program.effect, hfound] at heffect
    obtain ⟨rfl, rfl⟩ := hassign heffect
    exact ⟨rfl, rfl⟩
  | @loadParameter index p t hp hown ht =>
    obtain ⟨w, hw, rfl⟩ := hargs index p _ hp hown ht
    rw [Program.effect, hw] at heffect
    obtain ⟨rfl, rfl⟩ := hassign heffect
    exact ⟨rfl, rfl⟩
  | @convert source own t h hconv =>
    obtain ⟨a, ha, rfl⟩ := hregisters.read h
    obtain ⟨w, hw, rfl⟩ := Value.exists_convert hconv
    rw [Program.effect, ha] at heffect
    obtain ⟨rfl, hv⟩ := hlift heffect
    exact ⟨rfl, congrArg Value.type (Except.ok.inj (hv.symm.trans hw))⟩
  | @operate op left right l r t hl hr h =>
    obtain ⟨x, hx, rfl⟩ := hregisters.read hl
    obtain ⟨y, hy, rfl⟩ := hregisters.read hr
    rw [Program.effect, hx, hy] at heffect
    obtain ⟨rfl, hv⟩ := hlift heffect
    exact ⟨rfl, (Operation.fits_apply _ h).type_eq hv⟩
  | @compare op left right l r t hl hr h =>
    obtain ⟨x, -, heffect⟩ := bind_eq_ok_iff.mp heffect
    obtain ⟨y, -, heffect⟩ := bind_eq_ok_iff.mp heffect
    obtain ⟨u, -, heffect⟩ := bind_eq_ok_iff.mp heffect
    obtain ⟨rfl, rfl⟩ := hassign heffect
    simp only [Comparison.result?, Option.ite_none_right_eq_some, Option.some.injEq] at h
    exact ⟨rfl, h.2⟩
  | @unary op source own t h hresult =>
    obtain ⟨a, ha, rfl⟩ := hregisters.read h
    rw [Program.effect, ha] at heffect
    obtain ⟨rfl, hv⟩ := hlift heffect
    exact ⟨rfl, (UnaryOp.fits_apply hresult).type_eq hv⟩
  | @call index f rs s hcall hs hrs =>
    have hfound : (b.finish result tolerance).calls[index]? = some ⟨dest, f, rs⟩ := hcall
    obtain ⟨values, hvalues, htypes⟩ := hregisters.mapM_read hrs
    rw [Program.effect, hfound] at heffect
    simp only [hvalues, ok_bind] at heffect
    split at heffect
    · next w hw =>
      obtain ⟨rfl, rfl⟩ := hassign heffect
      exact ⟨rfl, (Function.fits_eval hs _ htypes).type_eq hw⟩
    · cases heffect

/-- At every moment of a run, the registers that have been written hold values of their types. -/
theorem Builder.Typed.holds {b : Builder} (hb : b.Typed params types) (hargs : Supplies params args)
    {result : Nat} {tolerance : Option Tolerance.Kind} {registry : Registry} {draws : Draws}
    {start : Array Value} {k : Nat}
    (h : (b.finish result tolerance).Reaches registry draws args start k registers) :
    Holds (types.take k) registers := by
  induction h with
  | start =>
    intro r t hr
    cases hr
  | @step k registers registers' i dest v _ hi heffect hwrite ih =>
    rw [getElem?_finish] at hi
    split at hi
    · -- the return puts no value anywhere
      obtain rfl := Option.some.inj hi
      obtain ⟨w, -, hfinish⟩ := bind_eq_ok_iff.mp heffect
      cases hfinish
    · have hk : k < types.length := hb.size ▸ (Array.getElem?_eq_some_iff.mp hi).1
      have hgives := hb.gives k i types[k] hi (List.getElem?_eq_getElem hk)
      obtain ⟨rfl, hv⟩ := hgives.assigns hargs ih heffect
      rw [Program.write] at hwrite
      split at hwrite
      · next hlt =>
        obtain rfl := Except.ok.inj hwrite
        intro r t hr
        rcases Nat.lt_trichotomy r dest with hr' | rfl | hr'
        · rw [Array.getElem?_setIfInBounds_ne hr'.ne']
          exact ih r t (by simpa [List.getElem?_take, hr', hr'.trans (Nat.lt_succ_self _)] using hr)
        · rw [List.getElem?_take_of_lt (Nat.lt_succ_self _), List.getElem?_eq_getElem hk] at hr
          exact ⟨v, Array.getElem?_setIfInBounds_self_of_lt hlt, hv.trans (Option.some.inj hr)⟩
        · rw [List.getElem?_take_eq_none hr'] at hr
          cases hr
      · cases hwrite

end

end Formula
