import Mathlib.Logic.Relation
import Formula.Proofs.Typing.Tables

/-!
# Weak narrowing loses no typing

Weak determination drops overloads and narrows masks, for one node after another and with tables
that are partly out of date. Whether it loses a typing is seen by comparing a tree `n` with the
tree `u` of the same shape that has all its overloads, under parameters pinned to one type each.

The invariant is `Covers`: `n` has kept, at every application, each overload of `u` that is viable
under the pinned types and reaches the mask the node was narrowed to. Costs then agree on every
type of the mask (`Covers.cost_eq`), and narrowing to a smaller mask neither fails nor breaks the
invariant (`Covers.weaken`).

## Main definitions

* `Pinned`: every parameter has at most one type.
* `Narrows`: the parameters are the same and no mask has grown.
* `Covers`: the invariant.

## Main results

* `Node.narrowSteps_weaken`: weak determination only narrows, one parameter after another.
* `Covers.firstCheapest`: the same overloads win in both trees.
* `Covers.weaken`: weak determination keeps the invariant.
-/

namespace Formula

/-! ### Narrowing parameters -/

/-- Every parameter has at most one type. -/
def Pinned (params : List Parameter) : Prop :=
  ∀ id s t, (maskAt params id).supports s = true → (maskAt params id).supports t = true → s = t

/-- The parameters are the same ones and no mask has grown. -/
def Narrows (before after : List Parameter) : Prop :=
  after.map Parameter.name = before.map Parameter.name ∧ Widens after before

namespace Narrows

theorem refl (params : List Parameter) : Narrows params params :=
  ⟨rfl, fun _ _ h => h⟩

theorem trans {a b c : List Parameter} (hab : Narrows a b) (hbc : Narrows b c) : Narrows a c :=
  ⟨hbc.1.trans hab.1, fun id t h => hab.2 id t (hbc.2 id t h)⟩

theorem length_eq {a b : List Parameter} (h : Narrows a b) : b.length = a.length := by
  simpa using congrArg List.length h.1

end Narrows

theorem maskAt_set (params : List Parameter) {id : Nat} (h : id < params.length) (p : Parameter)
    (i : Nat) : maskAt (params.set id p) i = if i = id then p.supported else maskAt params i := by
  by_cases hi : i = id
  · subst hi
    simp [maskAt, h]
  · simp [maskAt, hi, List.getElem?_set_ne (Ne.symm hi)]

theorem narrow_eq_ok_iff {params params' : List Parameter} {id : Nat} {mask : TypeMask} :
    narrow params id mask = .ok params' ↔ ∃ p, params[id]? = some p ∧
      (∃ t, p.supported.supports t = true ∧ mask.supports t = true) ∧
      params' = params.set id { p with supported := p.supported.inter mask } := by
  rw [narrow]
  cases hp : params[id]? with
  | none => simp
  | some p =>
    dsimp only
    split
    · next hempty =>
      have hno : ¬∃ t, (p.supported.inter mask).supports t = true := by
        rw [← TypeMask.isEmpty_eq_false_iff, hempty]
        simp
      simp only [reduceCtorEq, Option.some.injEq, exists_eq_left', false_iff, not_and]
      rintro ⟨t, hs, hm⟩
      exact absurd ⟨t, by simp [hs, hm]⟩ hno
    · next hne =>
      rw [Bool.not_eq_true, TypeMask.isEmpty_eq_false_iff] at hne
      obtain ⟨t, ht⟩ := hne
      rw [TypeMask.supports_inter, Bool.and_eq_true] at ht
      simp only [Except.ok.injEq, Option.some.injEq, exists_eq_left']
      exact ⟨fun h => ⟨⟨t, ht⟩, h.symm⟩, fun h => h.2.symm⟩

theorem narrows_of_narrow {params params' : List Parameter} {id : Nat} {mask : TypeMask}
    (h : narrow params id mask = .ok params') : Narrows params params' := by
  obtain ⟨p, hp, -, rfl⟩ := narrow_eq_ok_iff.mp h
  obtain ⟨hlt, rfl⟩ := List.getElem?_eq_some_iff.mp hp
  constructor
  · refine List.ext_getElem? fun i => ?_
    by_cases hi : i = id
    · subst hi
      simp [hlt]
    · simp [List.getElem?_set_ne (Ne.symm hi)]
  · intro i t ht
    rw [maskAt_set params hlt] at ht
    split at ht
    · next hi =>
      subst hi
      rw [TypeMask.supports_inter, Bool.and_eq_true] at ht
      simpa [maskAt, hp] using ht.1
    · exact ht

/-- Narrowing to a mask that holds a type of a pinned parameter keeps that type. -/
theorem narrow_of_pinned {ps params : List Parameter} (hpin : Pinned ps) (hw : Widens ps params)
    {id : Nat} {mask : TypeMask} {t : ValueType} (ht : (maskAt ps id).supports t = true)
    (hmask : mask.supports t = true) :
    ∃ params', narrow params id mask = .ok params' ∧ Widens ps params' := by
  have hin : (maskAt params id).supports t = true := hw id t ht
  have hlt : id < params.length := by
    by_contra hge
    simp [maskAt, List.getElem?_eq_none (Nat.le_of_not_lt hge)] at hin
  have hp : params[id]? = some params[id] := List.getElem?_eq_getElem hlt
  refine ⟨_, narrow_eq_ok_iff.mpr ⟨params[id], hp, ⟨t, ?_, hmask⟩, rfl⟩, ?_⟩
  · simpa [maskAt, hp] using hin
  · intro i s hs
    rw [maskAt_set params hlt]
    split
    · next hi =>
      subst hi
      obtain rfl := hpin i s t hs ht
      rw [TypeMask.supports_inter, Bool.and_eq_true]
      exact ⟨by simpa [maskAt, hp] using hin, hmask⟩
    · exact hw i s hs

/-- One parameter after another is narrowed. -/
def NarrowSteps : List Parameter → List Parameter → Prop :=
  Relation.ReflTransGen fun params params' => ∃ id mask, narrow params id mask = .ok params'

/-- Every parameter has a type left. -/
def TypesLeft (params : List Parameter) : Prop :=
  ∀ p ∈ params, p.supported.isEmpty = false

namespace NarrowSteps

variable {params params' : List Parameter} (h : NarrowSteps params params')
include h

theorem narrows : Narrows params params' := by
  induction h with
  | refl => exact .refl params
  | tail _ hstep ih =>
    obtain ⟨id, mask, hstep⟩ := hstep
    exact ih.trans (narrows_of_narrow hstep)

/-- A step that would leave a parameter no type fails. -/
theorem typesLeft (hparams : TypesLeft params) : TypesLeft params' := by
  induction h with
  | refl => exact hparams
  | tail _ hstep ih =>
    obtain ⟨id, mask, hstep⟩ := hstep
    obtain ⟨p, -, ⟨t, hleft, hright⟩, rfl⟩ := narrow_eq_ok_iff.mp hstep
    intro q hq
    rcases List.mem_or_eq_of_mem_set hq with hq | rfl
    · exact ih q hq
    · rw [TypeMask.isEmpty_eq_false_iff]
      exact ⟨t, by rw [TypeMask.supports_inter, hleft, hright, Bool.and_self]⟩

end NarrowSteps

namespace Node

mutual

/-- Weak determination only narrows the parameters, also where it fails. -/
theorem narrowSteps_weaken (mask : TypeMask) (node : Node) (params : List Parameter) :
    NarrowSteps params (weaken mask node params).2.1 := by
  match node with
  | constant v text =>
    rw [weaken]
    exact .refl
  | parameter id =>
    rw [weaken]
    split
    · next heq => exact .single ⟨id, _, heq⟩
    · exact .refl
  | apply head operands typing =>
    rw [weaken]
    split
    · exact .refl
    · next operands' heq =>
      dsimp only
      split
      · exact .refl
      · have hsize : sizeAll operands' = sizeAll operands := by
          rw [← sizeAll_refreshAll params operands, heq]
        have hall := narrowSteps_weakenAll (typing.signatures.filter fun s =>
          s.isViable (operands'.map (costs params)) && s.reaches mask) 0 operands' params
        split
        · next hw => rwa [hw] at hall
        · next hw =>
          rw [hw] at hall
          split <;> exact hall
termination_by 2 * node.size
decreasing_by
  simp only [size, hsize]
  omega

/-- Weak determination of operands only narrows the parameters. -/
theorem narrowSteps_weakenAll (signatures : List Signature) (place : Nat) (nodes : List Node)
    (params : List Parameter) : NarrowSteps params (weakenAll signatures place nodes params).2.1 := by
  match nodes with
  | [] =>
    rw [weakenAll]
    exact .refl
  | n :: rest =>
    have hn := narrowSteps_weaken (Typing.operandMask signatures place) n params
    rw [weakenAll]
    split
    · next hw => rwa [hw] at hn
    · next params' hw =>
      rw [hw] at hn
      exact Relation.ReflTransGen.trans hn
        (narrowSteps_weakenAll signatures (place + 1) rest params')
termination_by 2 * sizeAll nodes + 1
decreasing_by
  all_goals
    have := n.size_pos
    simp only [sizeAll]
    omega

end

end Node

/-! ### Masks of operands -/

namespace Typing

theorem supports_operandMask_iff {signatures : List Signature} {place : Nat} {t : ValueType} :
    (operandMask signatures place).supports t = true ↔
      ∃ s ∈ signatures, (TypeMask.of (s.args.getD place .unknown)).supports t = true := by
  have fold (mask : TypeMask) :
      (signatures.foldl (fun mask s => mask.union (TypeMask.of (s.args.getD place .unknown)))
        mask).supports t = true ↔ mask.supports t = true ∨
      ∃ s ∈ signatures, (TypeMask.of (s.args.getD place .unknown)).supports t = true := by
    induction signatures generalizing mask with
    | nil => simp
    | cons s signatures ih =>
      rw [List.foldl_cons, ih, TypeMask.supports_union, Bool.or_eq_true]
      simp [or_assoc]
  rw [operandMask, fold]
  simp

theorem supports_operandMask {signatures : List Signature} {place : Nat} {s : Signature}
    {t : ValueType} (hs : s ∈ signatures) (ht : s.args[place]? = some t) (hne : t ≠ .unknown) :
    (operandMask signatures place).supports t = true := by
  refine supports_operandMask_iff.mpr ⟨s, hs, ?_⟩
  rw [List.getD_eq_getElem?_getD, ht, Option.getD_some, TypeMask.supports_of hne]
  simp

theorem operandMask_mono {signatures signatures' : List Signature}
    (h : ∀ s ∈ signatures, s ∈ signatures') {place : Nat} {t : ValueType}
    (ht : (operandMask signatures place).supports t = true) :
    (operandMask signatures' place).supports t = true := by
  obtain ⟨s, hs, hst⟩ := supports_operandMask_iff.mp ht
  exact supports_operandMask_iff.mpr ⟨s, h s hs, hst⟩

end Typing

/-! ### The invariant -/

open Node (Typable)

/-- The second tree has the shape of the first one and has kept every overload that is viable for
the given parameters and reaches the mask. -/
inductive Covers (params : List Parameter) : TypeMask → Node → Node → Prop
  | constant (mask : TypeMask) (v : Value) (text : String) :
      Covers params mask (.constant v text) (.constant v text)
  | parameter (mask : TypeMask) (id : Nat) : Covers params mask (.parameter id) (.parameter id)
  | apply {mask : TypeMask} {head : Head} {us ns : List Node} {tu tn : Typing}
      (keep : Signature → Bool) (hlen : us.length = ns.length)
      (harity : ∀ s ∈ tu.signatures, s.args.length = us.length)
      (hsigs : tn.signatures = tu.signatures.filter keep)
      (hkeep : ∀ s ∈ tu.signatures, s.isViable (us.map (Node.table params)) = true →
        s.reaches mask = true → keep s = true)
      (hoperands : ∀ (i : Nat) u n, us[i]? = some u → ns[i]? = some n →
        Covers params (Typing.operandMask tn.signatures i) u n) :
      Covers params mask (.apply head us tu) (.apply head ns tn)

namespace Covers

variable {ps params : List Parameter} {mask mask' : TypeMask} {u n : Node}

theorem mono (h : Covers ps mask u n)
    (hm : ∀ t, mask'.supports t = true → mask.supports t = true) : Covers ps mask' u n := by
  cases h with
  | constant v text => exact .constant mask' _ _
  | parameter id => exact .parameter mask' _
  | apply keep hlen harity hsigs hkeep hoperands =>
    refine .apply keep hlen harity hsigs (fun s hs hv hr => hkeep s hs hv ?_) hoperands
    obtain ⟨t, ht, hc⟩ := Signature.reaches_iff.mp hr
    exact Signature.reaches_iff.mpr ⟨t, hm t ht, hc⟩

/-- The recomputed tables do not matter to the invariant. -/
theorem retable (h : Covers ps mask u n) : Covers ps mask u (n.retable params) := by
  induction h with
  | constant v text => exact .constant _ _ _
  | parameter id => exact .parameter _ _
  | apply keep hlen harity hsigs hkeep hoperands ih =>
    rw [Node.retable, Node.retableAll_eq_map]
    refine .apply keep (by simpa using hlen) harity hsigs hkeep ?_
    intro i u n' hu hn'
    rw [List.getElem?_map, Option.map_eq_some_iff] at hn'
    obtain ⟨n, hn, rfl⟩ := hn'
    exact ih i u n hu hn

section Apply

variable {head : Head} {us ns : List Node} {tu tn : Typing} {keep : Signature → Bool}

/-- Operands that cost the same on every type an overload asks of them give it the same prices. -/
private theorem prices_eq (hlen : us.length = ns.length)
    (hoperands : ∀ (i : Nat) u n, us[i]? = some u → ns[i]? = some n →
      ∀ t, (Typing.operandMask tn.signatures i).supports t = true →
        ((n.table ps).get? t).map Cost.cost = ((u.table ps).get? t).map Cost.cost)
    {s : Signature} (hs : s ∈ tn.signatures) :
    s.prices (ns.map (Node.table ps)) = s.prices (us.map (Node.table ps)) := by
  refine Signature.prices_congr (by simpa using hlen.symm) ?_
  intro i t costs costs' ht hcosts hcosts'
  rw [List.getElem?_map, Option.map_eq_some_iff] at hcosts hcosts'
  obtain ⟨n, hn, rfl⟩ := hcosts
  obtain ⟨u, hu, rfl⟩ := hcosts'
  by_cases hne : t = .unknown
  · subst hne
    rw [Node.get?_table_unknown, Node.get?_table_unknown]
  · exact hoperands i u n hu hn t (Typing.supports_operandMask hs ht hne)

/-- Overloads with an offer for a type of the mask have been kept. -/
private theorem keep_of_offer
    (hkeep : ∀ s ∈ tu.signatures, s.isViable (us.map (Node.table ps)) = true →
      s.reaches mask = true → keep s = true)
    {s : Signature} (hs : s ∈ tu.signatures) {t : ValueType} (ht : mask.supports t = true)
    (hoffer : (s.offer? (us.map (Node.table ps)) t).isSome) : keep s = true := by
  rw [Signature.isSome_offer?, Bool.and_eq_true] at hoffer
  exact hkeep s hs hoffer.1 (Signature.reaches_iff.mpr ⟨t, ht, hoffer.2⟩)

private theorem firstCheapest_aux (hlen : us.length = ns.length)
    (hsigs : tn.signatures = tu.signatures.filter keep)
    (hkeep : ∀ s ∈ tu.signatures, s.isViable (us.map (Node.table ps)) = true →
      s.reaches mask = true → keep s = true)
    (hoperands : ∀ (i : Nat) u n, us[i]? = some u → ns[i]? = some n →
      ∀ t, (Typing.operandMask tn.signatures i).supports t = true →
        ((n.table ps).get? t).map Cost.cost = ((u.table ps).get? t).map Cost.cost)
    {t : ValueType} (ht : mask.supports t = true) {s : Signature} {place cost : Nat}
    (h : FirstCheapest (fun s => s.offer? (us.map (Node.table ps)) t) tu.signatures s place cost) :
    ∃ place', FirstCheapest (fun s => s.offer? (ns.map (Node.table ps)) t) tn.signatures s place'
      cost := by
  have hkept : ∀ s' ∈ tu.signatures, (s'.offer? (us.map (Node.table ps)) t).isSome →
      keep s' = true := fun s' hs' ho => keep_of_offer hkeep hs' ht ho
  obtain ⟨place', hf⟩ := h.filter hkept
  rw [← hsigs] at hf
  refine ⟨place', hf.congr fun s' hs' => ?_⟩
  exact Signature.offer?_congr (prices_eq hlen hoperands hs').symm t

end Apply

/-- On the types of the mask both trees cost the same. -/
theorem cost_eq (h : Covers ps mask u n) {t : ValueType} (ht : mask.supports t = true) :
    ((n.table ps).get? t).map Cost.cost = ((u.table ps).get? t).map Cost.cost := by
  induction h generalizing t with
  | constant v text => rfl
  | parameter id => rfl
  | @apply mask head us ns tu tn keep hlen harity hsigs hkeep hoperands ih =>
    rw [Node.table_apply, Node.table_apply]
    cases hu : (Typing.costsFor tu.signatures (us.map (Node.table ps))).get? t with
    | none =>
      have hnone : (Typing.costsFor tn.signatures (ns.map (Node.table ps))).get? t = none := by
        rw [Typing.get?_costsFor_eq_none_iff] at hu ⊢
        intro s hs
        rw [Signature.offer?_congr (prices_eq hlen (fun i u n hu hn t => ih i u n hu hn) hs)]
        exact hu s (List.mem_filter.mp (hsigs ▸ hs)).1
      rw [hnone]
    | some e =>
      obtain ⟨s, hs, -⟩ := Typing.get?_costsFor_eq_some_iff.mp hu
      obtain ⟨place', hs'⟩ := firstCheapest_aux hlen hsigs hkeep
        (fun i u n hu hn t => ih i u n hu hn) ht hs
      have hn : (Typing.costsFor tn.signatures (ns.map (Node.table ps))).get? t =
          some ⟨e.cost, s.result, place'⟩ :=
        Typing.get?_costsFor_eq_some_iff.mpr ⟨s, hs', rfl⟩
      rw [hn]
      rfl

theorem isSome_eq (h : Covers ps mask u n) {t : ValueType} (ht : mask.supports t = true) :
    ((n.table ps).get? t).isSome = ((u.table ps).get? t).isSome := by
  simpa using congrArg Option.isSome (h.cost_eq ht)

/-- The overload that wins with all overloads there wins among the kept ones too. -/
theorem firstCheapest {head : Head} {us ns : List Node} {tu tn : Typing}
    (h : Covers ps mask (.apply head us tu) (.apply head ns tn)) {t : ValueType}
    (ht : mask.supports t = true) {s : Signature} {place cost : Nat}
    (hs : FirstCheapest (fun s => s.offer? (us.map (Node.table ps)) t) tu.signatures s place cost) :
    ∃ place', FirstCheapest (fun s => s.offer? (ns.map (Node.table ps)) t) tn.signatures s place'
      cost := by
  cases h with
  | apply keep hlen harity hsigs hkeep hoperands =>
    exact firstCheapest_aux hlen hsigs hkeep
      (fun i u n hu hn t ht => (hoperands i u n hu hn).cost_eq ht) ht hs

/-- Where the full tree can give a type of the mask, some kept overload is viable. -/
private theorem exists_viable {head : Head} {us : List Node} {tu : Typing}
    (ht : ∃ t, mask.supports t = true ∧
      (((Node.apply head us tu).table ps).get? t).isSome) :
    ∃ s ∈ tu.signatures, s.isViable (us.map (Node.table ps)) = true ∧ s.reaches mask = true := by
  obtain ⟨t, hmask, hsome⟩ := ht
  rw [Node.table_apply, Typing.isSome_get?_costsFor_iff] at hsome
  obtain ⟨s, hs, ho⟩ := hsome
  rw [Signature.isSome_offer?, Bool.and_eq_true] at ho
  exact ⟨s, hs, ho.1, Signature.reaches_iff.mpr ⟨t, hmask, ho.2⟩⟩

/-- An operand can give what a viable overload asks of it. -/
private theorem exists_operand_type {us : List Node} {s : Signature}
    (hviable : s.isViable (us.map (Node.table ps)) = true) (harity : s.args.length = us.length)
    {signatures : List Signature} (hs : s ∈ signatures) {i : Nat} {u : Node}
    (hu : us[i]? = some u) :
    ∃ t, s.args[i]? = some t ∧ (Typing.operandMask signatures i).supports t = true ∧
      ((u.table ps).get? t).isSome := by
  have hlt : i < s.args.length := harity ▸ (List.getElem?_eq_some_iff.mp hu).1
  have harg : s.args[i]? = some s.args[i] := List.getElem?_eq_getElem hlt
  have hsome : ((u.table ps).get? s.args[i]).isSome :=
    Signature.isViable_iff.mp hviable i _ _ harg (by simp [hu])
  refine ⟨_, harg, Typing.supports_operandMask hs harg ?_, hsome⟩
  intro hunknown
  rw [hunknown, Node.get?_table_unknown] at hsome
  simp at hsome

theorem typable (h : Covers ps mask u n) (hu : Typable ps u)
    (ht : ∃ t, mask.supports t = true ∧ ((u.table ps).get? t).isSome) : Typable ps n := by
  have hcovers := h
  induction h with
  | constant v text => exact .constant _ _
  | parameter id => exact .parameter _
  | @apply mask head us ns tu tn keep hlen harity hsigs hkeep hoperands ih =>
    obtain ⟨s, hs, hviable, hreach⟩ := exists_viable ht
    have hs' : s ∈ tn.signatures := hsigs ▸ List.mem_filter.mpr ⟨hs, hkeep s hs hviable hreach⟩
    cases hu with
    | apply hus htable =>
      refine .apply (fun n hn => ?_) (Node.table_ne_empty_iff.mpr ?_)
      · obtain ⟨i, hi⟩ := List.mem_iff_getElem?.mp hn
        have hlt : i < us.length := hlen ▸ (List.getElem?_eq_some_iff.mp hi).1
        have hui : us[i]? = some us[i] := List.getElem?_eq_getElem hlt
        obtain ⟨t, -, hmask, hsome⟩ := exists_operand_type hviable (harity s hs) hs' hui
        exact ih i _ n hui hi (hus _ (List.mem_of_getElem? hui)) ⟨t, hmask, hsome⟩
          (hoperands i _ n hui hi)
      · obtain ⟨t, hmask, hsome⟩ := ht
        exact ⟨t, by rw [hcovers.isSome_eq hmask, hsome]⟩

end Covers

/-- A narrowed tree that has lost nothing: it covers the full tree on the mask, and its own table,
though perhaps out of date, offers every type of the mask that the full tree can give. -/
structure Kept (ps : List Parameter) (mask : TypeMask) (u n : Node) : Prop where
  covers : Covers ps mask u n
  offers : ∀ params, Widens ps params → ∀ t, mask.supports t = true →
    ((u.table ps).get? t).isSome → ((n.costs params).get? t).isSome

namespace Covers

variable {ps params : List Parameter} {mask : TypeMask} {u n : Node}

/-- Operands that each keep their typings under narrowing keep them when narrowed in turn. -/
private theorem weakenAll {signatures : List Signature} {us ns : List Node} {place : Nat}
    (hlen : us.length = ns.length) (hw : Widens ps params)
    (hstep : ∀ (i : Nat) u n, us[i]? = some u → ns[i]? = some n → ∀ params, Widens ps params →
      ∃ n' params', n.weaken (Typing.operandMask signatures (place + i)) params =
        (n', params', none) ∧ Widens ps params' ∧
        Kept ps (Typing.operandMask signatures (place + i)) u n') :
    ∃ ns' params', Node.weakenAll signatures place ns params = (ns', params', none) ∧
      Widens ps params' ∧ us.length = ns'.length ∧
      ∀ (i : Nat) u n', us[i]? = some u → ns'[i]? = some n' →
        Kept ps (Typing.operandMask signatures (place + i)) u n' := by
  induction us generalizing ns place params with
  | nil =>
    obtain rfl := List.eq_nil_of_length_eq_zero hlen.symm
    exact ⟨[], params, by rw [Node.weakenAll], hw, rfl, by simp⟩
  | cons u us ih =>
    cases ns with
    | nil => simp at hlen
    | cons n ns =>
      obtain ⟨n', params₁, hn, hw₁, hkept⟩ := hstep 0 u n rfl rfl params hw
      have hstep' : ∀ (i : Nat) u n, us[i]? = some u → ns[i]? = some n → ∀ params,
          Widens ps params → ∃ n' params',
            n.weaken (Typing.operandMask signatures (place + 1 + i)) params =
              (n', params', none) ∧ Widens ps params' ∧
            Kept ps (Typing.operandMask signatures (place + 1 + i)) u n' := by
        intro i u n hu hn
        rw [Nat.add_right_comm]
        exact hstep (i + 1) u n (by simpa using hu) (by simpa using hn)
      obtain ⟨ns', params₂, hns, hw₂, hlen', hall⟩ := ih (by simpa using hlen) hw₁ hstep'
      refine ⟨n' :: ns', params₂, ?_, hw₂, by simp [hlen'], ?_⟩
      · rw [Nat.add_zero] at hn
        rw [Node.weakenAll, hn]
        simp only [hns]
      · rintro (_ | i) v m hv hm
        · obtain rfl := Option.some.inj hv
          obtain rfl := Option.some.inj hm
          exact hkept
        · have h := hall i v m (by simpa using hv) (by simpa using hm)
          rwa [Nat.add_right_comm] at h

/-- The overloads of an application that a narrowing step leaves over. -/
private def remaining (params : List Parameter) (mask : TypeMask) (ns : List Node) (tn : Typing) :
    List Signature :=
  tn.signatures.filter fun s => s.isViable (ns.map (Node.table params)) && s.reaches mask

/-- Among them are all that the full tree can use for a type of the mask. -/
private theorem mem_remaining {us ns : List Node} {tu tn : Typing} {keep : Signature → Bool}
    (hw : Widens ps params) (hlen : us.length = ns.length)
    (harity : ∀ s ∈ tu.signatures, s.args.length = us.length)
    (hsigs : tn.signatures = tu.signatures.filter keep)
    (hkeep : ∀ s ∈ tu.signatures, s.isViable (us.map (Node.table ps)) = true →
      s.reaches mask = true → keep s = true)
    (hoperands : ∀ (i : Nat) u n, us[i]? = some u → ns[i]? = some n →
      Covers ps (Typing.operandMask tn.signatures i) u n)
    {s : Signature} (hs : s ∈ tu.signatures)
    (hviable : s.isViable (us.map (Node.table ps)) = true) (hreach : s.reaches mask = true) :
    s ∈ remaining params mask ns tn := by
  have hmem : s ∈ tn.signatures := hsigs ▸ List.mem_filter.mpr ⟨hs, hkeep s hs hviable hreach⟩
  refine List.mem_filter.mpr ⟨hmem, Bool.and_eq_true_iff.mpr ⟨?_, hreach⟩⟩
  rw [Signature.isViable_iff]
  intro i t costs harg hcosts
  rw [List.getElem?_map, Option.map_eq_some_iff] at hcosts
  obtain ⟨n, hn, rfl⟩ := hcosts
  have hlt : i < us.length := hlen ▸ (List.getElem?_eq_some_iff.mp hn).1
  have hu : us[i]? = some us[i] := List.getElem?_eq_getElem hlt
  obtain ⟨t', harg', hmask, hsome⟩ := exists_operand_type hviable (harity s hs) hmem hu
  obtain rfl := Option.some.inj (harg.symm.trans harg')
  have hn' := (hoperands i _ n hu hn).isSome_eq hmask
  exact Node.isSome_get?_table_mono hw (hn'.trans hsome)

/-- What a narrowing step does to an application whose operands are narrowed without a fault. -/
private theorem weaken_apply_eq {head : Head} {ns ns' : List Node} {tn : Typing}
    {params' : List Parameter} (hns : ∀ n ∈ ns, Typable params n)
    (hnonempty : (remaining params mask ns tn).isEmpty = false)
    (hall : Node.weakenAll (remaining params mask ns tn) 0 (ns.map (Node.retable params)) params =
      (ns', params', none))
    (hcosts : (Typing.costsFor (remaining params mask ns tn)
      (ns'.map (Node.costs params'))).isEmpty = false) :
    (Node.apply head ns tn).weaken mask params =
      (.apply head ns' { tn with
        signatures := remaining params mask ns tn
        costs := Typing.costsFor (remaining params mask ns tn) (ns'.map (Node.costs params')) },
        params', none) := by
  have hmap : (ns.map (Node.retable params)).map (Node.costs params) =
      ns.map (Node.table params) := List.map_map ..
  rw [remaining] at hnonempty hall hcosts
  have hrefresh := Typable.refreshAll_eq hns
  rw [Node.weaken]
  split
  · next heq => simp [hrefresh] at heq
  · next operands' heq =>
    rw [hrefresh, Prod.mk.injEq] at heq
    obtain ⟨rfl, -⟩ := heq
    simp only [hmap, hnonempty, hall, Typing.compute, hcosts, Bool.false_eq_true, ↓reduceIte,
      remaining]

/-- The table that a narrowing step leaves offers what the full tree can give. -/
private theorem isSome_costsFor {us ns' : List Node} {tu : Typing} {signatures : List Signature}
    (hw : Widens ps params)
    (hmem : ∀ s ∈ tu.signatures, s.isViable (us.map (Node.table ps)) = true →
      s.reaches mask = true → s ∈ signatures)
    (harity : ∀ s ∈ tu.signatures, s.args.length = us.length)
    (hlen : us.length = ns'.length)
    (hkept : ∀ (i : Nat) u n', us[i]? = some u → ns'[i]? = some n' →
      Kept ps (Typing.operandMask signatures i) u n')
    {t : ValueType} (ht : mask.supports t = true)
    (hsome : ((Typing.costsFor tu.signatures (us.map (Node.table ps))).get? t).isSome) :
    ((Typing.costsFor signatures (ns'.map (Node.costs params))).get? t).isSome := by
  rw [Typing.isSome_get?_costsFor_iff] at hsome ⊢
  obtain ⟨s, hs, ho⟩ := hsome
  rw [Signature.isSome_offer?, Bool.and_eq_true] at ho
  have hs' := hmem s hs ho.1 (Signature.reaches_iff.mpr ⟨t, ht, ho.2⟩)
  refine ⟨s, hs', ?_⟩
  rw [Signature.isSome_offer?, Bool.and_eq_true, Signature.isViable_iff]
  refine ⟨fun i t' costs harg hcosts => ?_, ho.2⟩
  rw [List.getElem?_map, Option.map_eq_some_iff] at hcosts
  obtain ⟨n', hn', rfl⟩ := hcosts
  have hlt : i < us.length := hlen ▸ (List.getElem?_eq_some_iff.mp hn').1
  have hu : us[i]? = some us[i] := List.getElem?_eq_getElem hlt
  obtain ⟨t'', harg', hmask, hsome⟩ := exists_operand_type ho.1 (harity s hs) hs' hu
  obtain rfl := Option.some.inj (harg.symm.trans harg')
  exact (hkept i _ n' hu hn').offers params hw _ hmask hsome

/-- Narrowing a tree that covers the full one, to a mask with a type that the full one can give,
succeeds and loses nothing. -/
theorem weaken (hpin : Pinned ps) (h : Covers ps mask u n) (hu : Typable ps u)
    (hw : Widens ps params)
    (ht : ∃ t, mask.supports t = true ∧ ((u.table ps).get? t).isSome) :
    ∃ n' params', n.weaken mask params = (n', params', none) ∧ Widens ps params' ∧
      Kept ps mask u n' := by
  induction u using Node.induct generalizing n mask params with
  | constant v text =>
    cases h
    obtain ⟨t, hmask, hsome⟩ := ht
    refine ⟨.constant v text, params, ?_, hw, .constant _ _ _, fun _ _ _ _ hs => hs⟩
    have hreach : (((CostTable.leaf (TypeMask.of v.type)).supported).inter mask).isEmpty = false :=
      TypeMask.isEmpty_eq_false_iff.mpr ⟨t, by
        rw [TypeMask.supports_inter, Bool.and_eq_true, CostTable.supports_supported]
        exact ⟨⟨TypeMask.ne_unknown_of_supports hmask, hsome⟩, hmask⟩⟩
    rw [Node.weaken]
    simp [hreach]
  | parameter id =>
    cases h
    obtain ⟨t, hmask, hsome⟩ := ht
    rw [Node.table_parameter, CostTable.isSome_get?_leaf, List.any_eq_true] at hsome
    obtain ⟨s, hs, hconv⟩ := hsome
    rw [TypeMask.mem_types_iff] at hs
    obtain ⟨params', hnarrow, hw'⟩ := narrow_of_pinned hpin hw hs
      (TypeMask.supports_sources_iff.mpr ⟨t, hmask, hconv⟩)
    refine ⟨.parameter id, params', ?_, hw', .parameter _ _, ?_⟩
    · rw [Node.weaken, hnarrow]
    · intro later hlater t' _ hs'
      exact Node.isSome_get?_leaf_mono (hlater id) hs'
  | apply head us tu ih =>
    have htypable : Typable params n := (h.typable hu ht).mono hw
    obtain ⟨s, hs, hviable, hreach⟩ := exists_viable ht
    cases h with
    | @apply _ _ _ ns _ tn keep hlen harity hsigs hkeep hoperands =>
    cases hu with
    | apply hus _ =>
    cases htypable with
    | apply hns _ =>
    have hmem : ∀ s ∈ tu.signatures, s.isViable (us.map (Node.table ps)) = true →
        s.reaches mask = true → s ∈ remaining params mask ns tn := fun s hs hv hr =>
      mem_remaining hw hlen harity hsigs hkeep hoperands hs hv hr
    have hsub : ∀ s ∈ remaining params mask ns tn, s ∈ tn.signatures := fun s hs =>
      (List.mem_filter.mp hs).1
    have hsleft := hmem s hs hviable hreach
    have hnonempty : (remaining params mask ns tn).isEmpty = false := by
      rw [List.isEmpty_eq_false_iff_exists_mem]
      exact ⟨s, hsleft⟩
    -- Every operand is narrowed to what the remaining overloads ask, which `s` is one of.
    have hstep (i : Nat) (u m : Node) (hu : us[i]? = some u)
        (hm : (ns.map (Node.retable params))[i]? = some m) (later : List Parameter)
        (hlater : Widens ps later) :
        ∃ n' params', m.weaken (Typing.operandMask (remaining params mask ns tn) (0 + i)) later =
          (n', params', none) ∧ Widens ps params' ∧
          Kept ps (Typing.operandMask (remaining params mask ns tn) (0 + i)) u n' := by
      rw [List.getElem?_map, Option.map_eq_some_iff] at hm
      obtain ⟨n, hn, rfl⟩ := hm
      rw [Nat.zero_add]
      have hc : Covers ps (Typing.operandMask (remaining params mask ns tn) i) u
          (n.retable params) :=
        ((hoperands i u n hu hn).mono fun t => Typing.operandMask_mono hsub).retable
      obtain ⟨t, -, hmask, hsome⟩ := exists_operand_type hviable (harity s hs) hsleft hu
      exact ih u (List.mem_of_getElem? hu) hc (hus u (List.mem_of_getElem? hu)) hlater
        ⟨t, hmask, hsome⟩
    obtain ⟨ns', params', hall, hw', hlen', hkept⟩ := weakenAll (by simpa using hlen) hw hstep
    simp only [Nat.zero_add] at hkept
    have hoffers (t : ValueType) (ht : mask.supports t = true) :=
      isSome_costsFor hw' hmem harity hlen' hkept ht
    have hcosts : (Typing.costsFor (remaining params mask ns tn)
        (ns'.map (Node.costs params'))).isEmpty = false := by
      obtain ⟨t, hmask, hsome⟩ := ht
      rw [← Bool.not_eq_true, CostTable.isEmpty_iff]
      intro hnone
      have := hoffers t hmask (by rwa [Node.table_apply] at hsome)
      simp [hnone t] at this
    refine ⟨_, params', weaken_apply_eq hns hnonempty hall hcosts, hw', ?_, ?_⟩
    · refine .apply (fun s => (s.isViable (ns.map (Node.table params)) && s.reaches mask) &&
        keep s) hlen' harity ?_ ?_ fun i u n hu hn => (hkept i u n hu hn).covers
      · rw [remaining, hsigs, List.filter_filter]
      · intro s hs hv hr
        rw [Bool.and_eq_true]
        exact ⟨(List.mem_filter.mp (hmem s hs hv hr)).2, hkeep s hs hv hr⟩
    · intro later _ t hmask hsome
      rw [Node.table_apply] at hsome
      exact hoffers t hmask hsome

end Covers

end Formula
