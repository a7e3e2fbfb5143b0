import Formula.Proofs.Folding.Offset
import Formula.Proofs.Lowering.Numbering

/-!
# Folded trees need no more registers

A settled tree is lowered unless an index is too high. Every literal and every call gets a register
of its own, so the registers run out first, and a tree that needs fewer of them is lowered too. A
folded constant takes the one register that the result of its tree takes in any case.

## Main definitions

* `Builder.Slimmer`: one program under construction uses no more registers than another one.

## Main results

* `Folds.lower_ok`: a folded tree is lowered if the tree itself is.
* `Settled.exists_lower`: two registers a node are enough.
-/

namespace Formula

/-! ### Programs that use fewer registers -/

namespace Builder

/-- The first program uses no more registers than the second one, and its tables are no longer than
its registers are many. -/
structure Slimmer (c b : Builder) : Prop where
  registers : c.registers ≤ b.registers
  literals : c.literals.size ≤ c.registers
  calls : c.calls.size ≤ c.registers

theorem slimmer_empty : Slimmer {} {} :=
  ⟨Nat.le_refl _, Nat.le_refl _, Nat.le_refl _⟩

theorem le_of_allocate {b b' : Builder} {r : Nat} (h : b.allocate = .ok (r, b')) :
    b.registers ≤ maxIndex := by
  rw [allocate] at h
  obtain ⟨n, hn, -⟩ := bind_eq_ok_iff.mp h
  exact (index_eq_ok_iff.mp hn).1

theorem exists_emitApplication {b : Builder} {head : Head} {operands : List Nat}
    (hcount : head.takes operands.length) (h : b.calls.size ≤ maxIndex) (s : Signature)
    (dest : Nat) :
    ∃ b', b.emitApplication head s dest operands = .ok b' ∧ b'.registers = b.registers ∧
      b'.literals = b.literals ∧ b'.calls.size ≤ b.calls.size + 1 := by
  match head with
  | .unary op =>
    obtain ⟨x, rfl⟩ := List.length_eq_one_iff.mp hcount
    exact ⟨_, rfl, rfl, rfl, Nat.le_succ _⟩
  | .binary op =>
    obtain ⟨x, y, rfl⟩ := List.length_eq_two.mp hcount
    cases op <;> exact ⟨_, rfl, rfl, rfl, Nat.le_succ _⟩
  | .call f =>
    refine ⟨{ b with calls := b.calls.push ⟨dest, f, operands⟩ }.emit (.call b.calls.size), ?_, rfl,
      rfl, by simp [emit]⟩
    rw [emitApplication, addCall, index_eq_ok_iff.mpr ⟨h, rfl⟩]
    rfl

theorem registers_of_emitApplication {b b' : Builder} {head : Head} {s : Signature} {dest : Nat}
    {operands : List Nat} (h : b.emitApplication head s dest operands = .ok b') :
    b'.registers = b.registers := by
  unfold emitApplication at h
  split at h
  case h_4 =>
    obtain ⟨⟨place, b₁⟩, hcall, h⟩ := bind_eq_ok_iff.mp h
    obtain rfl := Except.ok.inj h
    obtain ⟨-, rfl⟩ := addCall_eq_ok hcall
    rfl
  all_goals cases h
  all_goals rfl

theorem registers_of_widen {b b' : Builder} {register result : Nat} {own target : ValueType}
    (h : b.widen register own target = .ok (result, b')) : b.registers ≤ b'.registers := by
  rw [widen] at h
  split at h
  · obtain ⟨-, rfl⟩ := Prod.mk.inj (Except.ok.inj h)
    exact Nat.le_refl _
  · obtain ⟨⟨dest, b₁⟩, hdest, h⟩ := bind_eq_ok_iff.mp h
    obtain ⟨-, rfl⟩ := Prod.mk.inj (Except.ok.inj h)
    obtain ⟨-, rfl⟩ := allocate_eq_ok hdest
    exact Nat.le_succ _

namespace Slimmer

variable {b b' c : Builder}

theorem widen (hslim : Slimmer c b) {register result : Nat} {own target : ValueType}
    (h : b.widen register own target = .ok (result, b')) (register' : Nat) :
    ∃ result' c', c.widen register' own target = .ok (result', c') ∧ Slimmer c' b' := by
  rw [Builder.widen] at h ⊢
  split at h
  · next heq =>
    obtain ⟨-, rfl⟩ := Prod.mk.inj (Except.ok.inj h)
    rw [if_pos heq]
    exact ⟨_, _, rfl, hslim⟩
  · next hne =>
    obtain ⟨⟨dest, b₁⟩, hdest, h⟩ := bind_eq_ok_iff.mp h
    obtain ⟨-, rfl⟩ := Prod.mk.inj (Except.ok.inj h)
    have hroom := Nat.le_trans hslim.registers (le_of_allocate hdest)
    obtain ⟨-, rfl⟩ := allocate_eq_ok hdest
    rw [if_neg hne, allocate_of_le hroom]
    exact ⟨_, _, rfl, Nat.succ_le_succ hslim.registers, Nat.le_succ_of_le hslim.literals,
      Nat.le_succ_of_le hslim.calls⟩

/-- The instruction of an application, after its operands. -/
theorem apply (hslim : Slimmer c b) {head : Head} {s : Signature} {target : ValueType}
    {operands operands' : List Nat} (hcount : head.takes operands'.length) {dest result : Nat}
    {b₁ b₂ : Builder} (hdest : b.allocate = .ok (dest, b₁))
    (hemit : b₁.emitApplication head s dest operands = .ok b₂)
    (hwiden : b₂.widen dest s.result target = .ok (result, b')) :
    ∃ dest' c₁ c₂ result' c', c.allocate = .ok (dest', c₁) ∧
      c₁.emitApplication head s dest' operands' = .ok c₂ ∧
      c₂.widen dest' s.result target = .ok (result', c') ∧ Slimmer c' b' := by
  have hroom := Nat.le_trans hslim.registers (le_of_allocate hdest)
  obtain ⟨-, rfl⟩ := allocate_eq_ok hdest
  obtain ⟨c₂, hemit', hregisters, hliterals, hcalls⟩ :=
    exists_emitApplication (b := { c with registers := c.registers + 1 }) hcount
      (Nat.le_trans hslim.calls hroom) s c.registers
  have hslim' : Slimmer c₂ b₂ := by
    refine ⟨?_, ?_, ?_⟩
    · rw [hregisters, registers_of_emitApplication hemit]
      exact Nat.succ_le_succ hslim.registers
    · rw [hliterals, hregisters]
      exact Nat.le_succ_of_le hslim.literals
    · rw [hregisters]
      exact Nat.le_trans hcalls (Nat.succ_le_succ hslim.calls)
  obtain ⟨result', c', hwiden', hslim''⟩ := hslim'.widen hwiden c.registers
  exact ⟨_, _, c₂, result', c', allocate_of_le hroom, hemit', hwiden', hslim''⟩

end Slimmer

end Builder

/-! ### Lowering allocates -/

namespace Node

theorem registers_of_lowerAll {params : List Parameter} {nodes : List Node}
    (ih : ∀ n ∈ nodes, ∀ target b b' result, n.lower params target b = .ok (result, b') →
      b.registers ≤ maxIndex ∧ b.registers < b'.registers)
    {targets : List ValueType} {b b' : Builder} {results : List Nat}
    (h : lowerAll params targets nodes b = .ok (results, b')) : b.registers ≤ b'.registers := by
  induction nodes generalizing targets b results with
  | nil =>
    rw [lowerAll] at h
    obtain ⟨-, rfl⟩ := Prod.mk.inj (Except.ok.inj h)
    exact Nat.le_refl _
  | cons n rest hrest =>
    cases targets with
    | nil =>
      rw [lowerAll] at h
      · obtain ⟨-, rfl⟩ := Prod.mk.inj (Except.ok.inj h)
        exact Nat.le_refl _
      · simp
    | cons target targets =>
      rw [lowerAll] at h
      obtain ⟨⟨register, b₁⟩, hn, h⟩ := bind_eq_ok_iff.mp h
      obtain ⟨⟨registers, b₂⟩, htail, h⟩ := bind_eq_ok_iff.mp h
      obtain ⟨-, rfl⟩ := Prod.mk.inj (Except.ok.inj h)
      exact Nat.le_trans (Nat.le_of_lt (ih n (List.mem_cons_self ..) target b b₁ register hn).2)
        (hrest (fun m hm => ih m (List.mem_cons_of_mem n hm)) htail)

/-- Every tree takes a register at least. -/
theorem registers_of_lower {params : List Parameter} {target : ValueType} {node : Node}
    {b b' : Builder} {result : Nat} (h : node.lower params target b = .ok (result, b')) :
    b.registers ≤ maxIndex ∧ b.registers < b'.registers := by
  induction node using Node.induct generalizing target b b' result with
  | constant v text =>
    rw [lower] at h
    split at h
    · cases h
    · obtain ⟨⟨place, b₁⟩, hliteral, h⟩ := bind_eq_ok_iff.mp h
      obtain ⟨⟨dest, b₂⟩, hdest, h⟩ := bind_eq_ok_iff.mp h
      obtain ⟨-, rfl⟩ := Prod.mk.inj (Except.ok.inj h)
      have hroom := Builder.le_of_allocate hdest
      obtain ⟨-, rfl⟩ := Builder.allocate_eq_ok hdest
      obtain ⟨n, -, hliteral⟩ := bind_eq_ok_iff.mp hliteral
      obtain ⟨rfl, rfl⟩ := Prod.mk.inj (Except.ok.inj hliteral)
      rw [Builder.registers_putLiteral] at hroom
      exact ⟨hroom, by simp [Builder.emit, Builder.registers_putLiteral]⟩
  | parameter id =>
    rw [lower] at h
    obtain ⟨place, -, h⟩ := bind_eq_ok_iff.mp h
    split at h
    · cases h
    · obtain ⟨⟨dest, b₁⟩, hdest, h⟩ := bind_eq_ok_iff.mp h
      have hroom := Builder.le_of_allocate hdest
      obtain ⟨-, rfl⟩ := Builder.allocate_eq_ok hdest
      dsimp only at h
      split at h
      · exact ⟨hroom, Builder.registers_of_widen h⟩
      · obtain ⟨-, rfl⟩ := Prod.mk.inj (Except.ok.inj h)
        exact ⟨hroom, Nat.lt_succ_self _⟩
  | apply head operands typing ih =>
    rw [lower] at h
    split at h
    · cases h
    · obtain ⟨⟨results, b₁⟩, hall, h⟩ := bind_eq_ok_iff.mp h
      obtain ⟨⟨dest, b₂⟩, hdest, h⟩ := bind_eq_ok_iff.mp h
      obtain ⟨b₃, happly, hwiden⟩ := bind_eq_ok_iff.mp h
      have hoperands := registers_of_lowerAll (fun n hn _ _ _ _ => ih n hn) hall
      have hroom := Builder.le_of_allocate hdest
      obtain ⟨-, rfl⟩ := Builder.allocate_eq_ok hdest
      have hresult := Builder.registers_of_widen hwiden
      rw [Builder.registers_of_emitApplication happly] at hresult
      exact ⟨Nat.le_trans hoperands hroom, Nat.lt_of_le_of_lt hoperands hresult⟩

/-- Operands that are lowered where others are, one by one, are so in turn. -/
theorem lowerAll_ok {params : List Parameter} {targets : List ValueType} {us ns : List Node}
    (hlen : us.length = ns.length)
    (h : ∀ (i : Nat) t u n, targets[i]? = some t → us[i]? = some u → ns[i]? = some n →
      ∀ b b' c r, u.lower params t b = .ok (r, b') → c.Slimmer b →
        ∃ r' c', n.lower params t c = .ok (r', c') ∧ c'.Slimmer b')
    {b b' c : Builder} {rs : List Nat} (hlower : lowerAll params targets us b = .ok (rs, b'))
    (hslim : c.Slimmer b) :
    ∃ rs' c', lowerAll params targets ns c = .ok (rs', c') ∧ c'.Slimmer b' := by
  induction us generalizing ns targets b c rs with
  | nil =>
    obtain rfl := List.length_eq_zero_iff.mp hlen.symm
    rw [lowerAll] at hlower
    obtain ⟨-, rfl⟩ := Prod.mk.inj (Except.ok.inj hlower)
    exact ⟨[], c, by rw [lowerAll], hslim⟩
  | cons u us ih =>
    obtain _ | ⟨n, ns⟩ := ns
    · simp at hlen
    cases targets with
    | nil =>
      rw [lowerAll] at hlower
      · obtain ⟨-, rfl⟩ := Prod.mk.inj (Except.ok.inj hlower)
        exact ⟨[], c, by rw [lowerAll]; simp, hslim⟩
      · simp
    | cons t targets =>
      rw [lowerAll] at hlower
      obtain ⟨⟨r, b₁⟩, hu, hlower⟩ := bind_eq_ok_iff.mp hlower
      obtain ⟨⟨rs₁, b₂⟩, hus, hlower⟩ := bind_eq_ok_iff.mp hlower
      obtain ⟨-, rfl⟩ := Prod.mk.inj (Except.ok.inj hlower)
      obtain ⟨r', c₁, hn, hslim₁⟩ := h 0 t u n rfl rfl rfl b b₁ c r hu hslim
      obtain ⟨rs', c₂, hns, hslim₂⟩ := ih (by simpa using hlen) (fun i t u n ht hu hn =>
        h (i + 1) t u n (by simpa using ht) (by simpa using hu) (by simpa using hn)) hus hslim₁
      refine ⟨r' :: rs', c₂, ?_, hslim₂⟩
      rw [lowerAll, hn]
      simp only [ok_bind, hns]
      rfl

end Node

/-! ### Lowering folded trees -/

/-- A constant is lowered if there is a register for its value. -/
theorem Value.lower_ok {v : Value} {t : ValueType} (hconv : (conversionCost? v.type t).isSome)
    {b b' c : Builder} (hroom : b.registers ≤ maxIndex) (hlt : b.registers < b'.registers)
    (hslim : c.Slimmer b) (params : List Parameter) (text : String) :
    ∃ r c', (Node.constant v text).lower params t c = .ok (r, c') ∧ c'.Slimmer b' := by
  obtain ⟨w, hw, -⟩ := Value.exists_convert hconv
  have hc := Nat.le_trans hslim.registers hroom
  obtain ⟨place, c₁, hliteral, hregisters, hcalls, hliterals⟩ :=
    Builder.exists_addLiteral (Nat.le_trans hslim.literals hc) w
  have hlower : (Node.constant v text).lower params t c = .ok (c₁.registers,
      { c₁ with registers := c₁.registers + 1 }.emit (.loadLiteral c₁.registers place)) := by
    rw [Node.lower, hw]
    simp only [hliteral, Builder.allocate_of_le (hregisters ▸ hc), ok_bind]
    rfl
  refine ⟨_, _, hlower, ?_, ?_, ?_⟩
  · have := hslim.registers
    simp only [Builder.emit, hregisters]
    omega
  · have := hslim.literals
    simp only [Builder.emit, hregisters]
    omega
  · have := hslim.calls
    simp only [Builder.emit, hregisters, hcalls]
    omega

theorem Node.lower_parameter_ok {params : List Parameter} {id : Nat} {t : ValueType}
    {b b' c : Builder} {r : Nat} (h : (parameter id).lower params t b = .ok (r, b'))
    (hslim : c.Slimmer b) :
    ∃ r' c', (parameter id).lower params t c = .ok (r', c') ∧ c'.Slimmer b' := by
  rw [lower] at h ⊢
  obtain ⟨place, hplace, h⟩ := bind_eq_ok_iff.mp h
  rw [hplace]
  simp only [ok_bind]
  split at h
  · cases h
  · obtain ⟨⟨dest, b₁⟩, hdest, h⟩ := bind_eq_ok_iff.mp h
    rw [Builder.allocate_of_le (Nat.le_trans hslim.registers (Builder.le_of_allocate hdest))]
    obtain ⟨-, rfl⟩ := Builder.allocate_eq_ok hdest
    have hslim' (i j : Instruction) :
        ({ c with registers := c.registers + 1 }.emit i).Slimmer
          ({ b with registers := b.registers + 1 }.emit j) :=
      ⟨Nat.succ_le_succ hslim.registers, Nat.le_succ_of_le hslim.literals,
        Nat.le_succ_of_le hslim.calls⟩
    dsimp only at h ⊢
    split at h
    · exact (hslim' _ _).widen h c.registers
    · obtain ⟨-, rfl⟩ := Prod.mk.inj (Except.ok.inj h)
      exact ⟨_, _, rfl, hslim' _ _⟩

/-- An application is lowered if another one is that has settled on the same overload, and if the
operands are so. -/
theorem Node.lower_apply_ok {params : List Parameter} {head : Head} {us ns : List Node}
    {tu tn : Typing} {t : ValueType} {s : Signature} (hu : tu.selected? = some (t, s))
    (hn : tn.selected? = some (t, s)) (hcount : head.takes us.length)
    (hus : s.args.length = us.length) (hns : s.args.length = ns.length)
    (h : ∀ (i : Nat) t u n, s.args[i]? = some t → us[i]? = some u → ns[i]? = some n →
      ∀ b b' c r, u.lower params t b = .ok (r, b') → c.Slimmer b →
        ∃ r' c', n.lower params t c = .ok (r', c') ∧ c'.Slimmer b')
    {b b' c : Builder} {r : Nat} (hlower : (apply head us tu).lower params t b = .ok (r, b'))
    (hslim : c.Slimmer b) :
    ∃ r' c', (apply head ns tn).lower params t c = .ok (r', c') ∧ c'.Slimmer b' := by
  rw [lower, hu] at hlower
  rw [lower, hn]
  obtain ⟨⟨results, b₁⟩, hall, hlower⟩ := bind_eq_ok_iff.mp hlower
  obtain ⟨⟨dest, b₂⟩, hdest, hlower⟩ := bind_eq_ok_iff.mp hlower
  obtain ⟨b₃, hemit, hwiden⟩ := bind_eq_ok_iff.mp hlower
  obtain ⟨results', c₁, hall', hslim₁⟩ := lowerAll_ok (hus.symm.trans hns) h hall hslim
  have hcount' : head.takes results'.length := by
    rw [length_of_lowerAll hns hall', ← hns, hus]
    exact hcount
  obtain ⟨dest', c₂, c₃, result', c', hdest', hemit', hwiden', hslim'⟩ :=
    hslim₁.apply hcount' hdest hemit hwiden
  refine ⟨result', c', ?_, hslim'⟩
  simp only [hall', hdest', hemit', hwiden', ok_bind]

/-- A folded tree is lowered if the tree itself is, and uses no more registers. -/
theorem Folds.lower_ok {k : Nat} {u n : Node} (h : Folds k u n) {ps : List Parameter}
    (hpin : Pinned ps) (hu : u.Formed) (hn : n.Formed) {t : ValueType}
    (ht : ((u.table ps).get? t).isSome) {b b' c : Builder} {r : Nat}
    (hlower : (Node.strengthen t (u.retable ps) ps).1.lower ps t b = .ok (r, b'))
    (hslim : c.Slimmer b) :
    ∃ r' c', (Node.strengthen t (n.retable ps) ps).1.lower ps t c = .ok (r', c') ∧
      c'.Slimmer b' := by
  have hoffer := (h.raised_table ps).isSome_eq t
  induction h generalizing t b b' c r with
  | constant v text =>
    rw [Node.retable, Node.strengthen] at hlower ⊢
    obtain ⟨hroom, hlt⟩ := Node.registers_of_lower hlower
    rw [Node.table_constant, CostTable.leaf_of v.type_ne_unknown,
      CostTable.isSome_get?_offerConversions] at ht
    exact Value.lower_ok (by simpa using ht) hroom hlt hslim ps text
  | parameter id =>
    have hsame : (Node.strengthen t ((Node.parameter id).retable ps) ps).1 = .parameter id := by
      rw [Node.retable, Node.strengthen]
      split <;> rfl
    rw [hsame] at hlower ⊢
    exact Node.lower_parameter_ok hlower hslim
  | @apply head us ns tu tn ks hus hns harity hsigs hcosts hoperands ih =>
    -- The same overload wins, because the offset is that of all overloads.
    obtain ⟨s, place, cost, hs, -, hoffers⟩ := Node.exists_firstCheapest (hoffer ▸ ht)
    have hraised (i : Nat) (k : Nat) (u n : Node) (hk : ks[i]? = some k) (hu : us[i]? = some u)
        (hn : ns[i]? = some n) := (hoperands i k u n hk hu hn).raised_table ps
    have hs' := hs.raise fun s' hs' => Signature.offer?_raised (harity s' hs')
      (raisedAll_map hus hns hraised) t
    rw [← hsigs] at hs'
    have hargs := harity s hs.mem
    cases hu with
    | apply hcount _ hformedu =>
    cases hn with
    | apply _ _ hformedn =>
    have hplaces (i : Nat) (u : Node) (hu : us[i]? = some u) : ∃ k, ks[i]? = some k :=
      ⟨_, List.getElem?_eq_getElem (hus ▸ (List.getElem?_eq_some_iff.mp hu).1)⟩
    have hoffersu (i : Nat) (t : ValueType) (u : Node) (ht : s.args[i]? = some t)
        (hu : us[i]? = some u) : ((u.table ps).get? t).isSome := by
      have hlt : i < ks.length := hus ▸ (List.getElem?_eq_some_iff.mp hu).1
      have hn : ns[i]? = some (ns.get ⟨i, hns ▸ hlt⟩) := List.getElem?_eq_getElem _
      obtain ⟨k, hk⟩ := hplaces i u hu
      rw [(hraised i k u _ hk hu hn).isSome_eq]
      exact hoffers i t _ ht hn
    have hsettledu (i : Nat) (t : ValueType) (u : Node) (ht : s.args[i]? = some t)
        (hu : us[i]? = some u) : (Node.strengthen t (u.retable ps) ps).2 = (ps, none) :=
      (Node.strengthen_retable hpin (hformedu u (List.mem_of_getElem? hu))
        (hoffersu i t u ht hu)).1
    have hsettledn (i : Nat) (t : ValueType) (n : Node) (ht : s.args[i]? = some t)
        (hn : ns[i]? = some n) : (Node.strengthen t (n.retable ps) ps).2 = (ps, none) :=
      (Node.strengthen_retable hpin (hformedn n (List.mem_of_getElem? hn))
        (hoffers i t n ht hn)).1
    rw [Node.strengthen_apply_eq hs' (hargs.trans hus.symm) hsettledu] at hlower
    rw [Node.strengthen_apply_eq hs (hargs.trans hns.symm) hsettledn]
    refine Node.lower_apply_ok (s := s) (by simp [Typing.selected?, hs'.getElem?])
      (by simp [Typing.selected?, hs.getElem?]) ?_ (by simp [hargs, hus]) (by simp [hargs, hns]) ?_
      hlower hslim
    · simpa [hargs, hus] using hcount
    · intro i t u' n' hti hu' hn' b b' c r hlower hslim
      rw [List.getElem?_zipWith, hti] at hu' hn'
      cases hui : us[i]? with
      | none => simp [hui] at hu'
      | some u =>
      cases hni : ns[i]? with
      | none => simp [hni] at hn'
      | some n =>
      rw [hui] at hu'
      rw [hni] at hn'
      obtain rfl := Option.some.inj hu'
      obtain rfl := Option.some.inj hn'
      obtain ⟨k, hk⟩ := hplaces i u hui
      exact ih i k u n hk hui hni (hformedu u (List.mem_of_getElem? hui))
        (hformedn n (List.mem_of_getElem? hni)) (hoffersu i t u hti hui) hlower hslim
        ((hraised i k u n hk hui hni).isSome_eq t)
  | @folded k cost choice u head cs typing s v h hnatural hcosts htype text ih =>
    obtain ⟨hroom, hlt⟩ := Node.registers_of_lower hlower
    rw [hoffer, Node.table_constant, CostTable.leaf_of v.type_ne_unknown,
      CostTable.isSome_get?_offerConversions] at ht
    rw [Node.retable, Node.strengthen]
    exact Value.lower_ok (by simpa using ht) hroom hlt hslim ps text

/-! ### Trees that fit -/

namespace Node

/-- A node is converted once at most. -/
theorem converted_le_size (params : List Parameter) (t : ValueType) (node : Node) :
    node.converted params t ≤ node.size := by
  have hall (nodes : List Node) (ih : ∀ n ∈ nodes, ∀ t, n.converted params t ≤ n.size)
      (targets : List ValueType) : convertedAll params targets nodes ≤ sizeAll nodes := by
    induction nodes generalizing targets with
    | nil => cases targets <;> simp [convertedAll]
    | cons n rest hrest =>
      obtain _ | ⟨t, targets⟩ := targets
      · simp [convertedAll]
      have := ih n (List.mem_cons_self ..) t
      have := hrest (fun m hm => ih m (List.mem_cons_of_mem n hm)) targets
      rw [convertedAll, sizeAll]
      omega
  induction node using Node.induct generalizing t with
  | constant v text => simp [converted]
  | parameter id =>
    rw [converted, size]
    split
    · split <;> omega
    · omega
  | apply head operands typing ih =>
    rw [converted, size]
    split
    · next s _ =>
      have := hall operands ih s.args
      split <;> omega
    · omega

theorem size_retable (params : List Parameter) (node : Node) :
    (node.retable params).size = node.size := by
  have hall (nodes : List Node) (ih : ∀ n ∈ nodes, (n.retable params).size = n.size) :
      sizeAll (nodes.map (retable params)) = sizeAll nodes := by
    induction nodes with
    | nil => rfl
    | cons n rest hrest =>
      rw [List.map_cons, sizeAll, sizeAll, ih n (List.mem_cons_self ..),
        hrest fun m hm => ih m (List.mem_cons_of_mem _ hm)]
  induction node using Node.induct with
  | constant v text => rfl
  | parameter id => rfl
  | apply head operands typing ih =>
    rw [retable, retableAll_eq_map, size, size, hall operands ih]

theorem size_strengthen (t : ValueType) (node : Node) (params : List Parameter) :
    (strengthen t node params).1.size = node.size := by
  have hall (nodes : List Node)
      (ih : ∀ n ∈ nodes, ∀ t params, (strengthen t n params).1.size = n.size)
      (targets : List ValueType) (params : List Parameter) :
      sizeAll (strengthenAll targets nodes params).1 = sizeAll nodes := by
    induction nodes generalizing targets params with
    | nil => rw [strengthenAll]
    | cons n rest hrest =>
      obtain _ | ⟨t, targets⟩ := targets
      · rfl
      have hn := ih n (List.mem_cons_self ..) t params
      rw [strengthenAll]
      split
      · next heq =>
        rw [heq] at hn
        rw [sizeAll, sizeAll, hn]
      · next heq =>
        rw [heq] at hn
        dsimp only
        rw [sizeAll, sizeAll, hn, hrest fun m hm => ih m (List.mem_cons_of_mem _ hm)]
  induction node using Node.induct generalizing t params with
  | constant v text => rfl
  | parameter id =>
    rw [strengthen]
    split <;> rfl
  | apply head operands typing ih =>
    rw [strengthen]
    split
    · rfl
    · split
      · rfl
      · dsimp only
        rw [size, size, hall operands ih]

end Node

theorem Settled.lowerable {params : List Parameter} (hparams : params.length ≤ maxIndex + 1)
    {t : ValueType} {node : Node} (h : Settled params t node) : Lowerable params t node := by
  induction h with
  | constant hconv => exact .constant hconv
  | @parameter target own id p hp hown hconv =>
    have hid : id ≤ maxIndex := by
      have := (List.getElem?_eq_some_iff.mp hp).1
      omega
    have hsingle : p.supported.single? = some own := by
      rw [hown, TypeMask.single?_of (ne_unknown_of_conversionCost? hconv).1]
    exact .parameter hid hp hsingle
  | @apply target head operands typing s hcount hs hselected hconv _ ih =>
    exact .apply hcount hselected (Head.length_args hcount hs) ih

/-- Two registers a node are enough to lower a settled tree. -/
theorem Settled.exists_lower {params : List Parameter} (hparams : params.length ≤ maxIndex + 1)
    {t : ValueType} {node : Node} (h : Settled params t node) (hsize : 2 * node.size ≤ maxIndex + 1) :
    ∃ r b, node.lower params t {} = .ok (r, b) := by
  have htakes := (h.lowerable hparams).takes Builder.numbered_empty
  have hconverted := node.converted_le_size params t
  have hempty : ({} : Builder).registers = 0 := rfl
  generalize node.lower params t {} = outcome at htakes ⊢
  cases htakes with
  | fits => exact ⟨_, _, rfl⟩
  | exceeds hlarge =>
    rw [Node.registers] at hlarge
    omega

end Formula
