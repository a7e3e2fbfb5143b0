import Mathlib.Data.List.Forall2
import Formula.Proofs.Lowering.Widening
import Formula.Proofs.Value.Canonical

/-!
# Evaluation with and without types

A term is evaluated directly, every head on the values of its operands as they are. Its tree is
evaluated by overloads, which convert operands and constants. Where the arguments have the types
that the parameters are pinned to, the two agree: every tree has a natural type, its value before
the last conversion is the value of the term, and the natural overload does to converted operands
what the head does to the operands themselves.

The table of literals does not see the sign of a zero, and random functions draw by the place of
their call; so the negative zero is no constant of the term, and its functions are deterministic.

## Main definitions

* `Term.isReproducible`: the terms that both evaluations treat alike.
* `Follows`: evaluation with types gives the converted value of evaluation without.

## Main results

* `Node.Canonical.lower`: lowering puts only canonical literals into the table.
* `Term.meaning_full`: the meaning of the full tree follows the value of the term.
* `Term.run_lowered`: running the program of an assembled tree evaluates the term.
-/

namespace Formula

/-! ### Canonical literals -/

namespace Builder

/-- All literals are canonical. -/
def Canonical (b : Builder) : Prop :=
  ∀ v ∈ b.literals, v.canonical = v

theorem canonical_empty : ({} : Builder).Canonical := by
  intro v hv
  simp at hv

/-- A table of canonical literals holds a canonical literal itself. -/
theorem Canonical.literal_eq {b : Builder} (h : b.Canonical) (hb : b.Sound) {v : Value}
    (hv : v.canonical = v) : b.literal v = v := by
  have hliteral := hb.canonical_literal v
  rw [hv] at hliteral
  rw [literal] at hliteral ⊢
  cases hplace : b.places[v.canonical]? with
  | none => rfl
  | some place =>
    obtain ⟨w, hw, -⟩ := hb _ _ hplace
    rw [hplace, Option.bind_some, hw, Option.getD_some, h w (Array.mem_of_getElem? hw)] at hliteral
    rw [Option.bind_some, hw, Option.getD_some, hliteral]

theorem Canonical.addLiteral {b b' : Builder} (h : b.Canonical) (hb : b.Sound) {v : Value}
    (hv : v.canonical = v) {place : Nat} (hadd : b.addLiteral v = .ok (place, b')) :
    b'.Canonical := by
  obtain ⟨-, -, -, -, -, hcases⟩ := addLiteral_eq_ok hb hadd
  rcases hcases with rfl | hpush
  · exact h
  · intro w hw
    rw [hpush, Array.mem_push] at hw
    rcases hw with hw | rfl
    · exact h w hw
    · exact hv

theorem literals_of_widen {b b' : Builder} {register result : Nat} {own target : ValueType}
    (h : b.widen register own target = .ok (result, b')) : b'.literals = b.literals := by
  rw [widen] at h
  split at h
  · obtain ⟨-, rfl⟩ := Prod.mk.inj (Except.ok.inj h)
    rfl
  · obtain ⟨⟨dest, b₁⟩, hdest, h⟩ := bind_eq_ok_iff.mp h
    obtain ⟨-, rfl⟩ := Prod.mk.inj (Except.ok.inj h)
    obtain ⟨-, rfl⟩ := allocate_eq_ok hdest
    rfl

theorem literals_of_emitApplication {b b' : Builder} {head : Head} {s : Signature} {dest : Nat}
    {operands : List Nat} (h : b.emitApplication head s dest operands = .ok b') :
    b'.literals = b.literals := by
  unfold emitApplication at h
  split at h
  case h_4 =>
    obtain ⟨⟨place, b₁⟩, hcall, h⟩ := bind_eq_ok_iff.mp h
    obtain rfl := Except.ok.inj h
    obtain ⟨-, rfl⟩ := addCall_eq_ok hcall
    rfl
  all_goals cases h
  all_goals rfl

end Builder

namespace Node

/-- All constants are canonical. -/
inductive Canonical : Node → Prop
  | constant {v : Value} (text : String) (h : v.canonical = v) : Canonical (constant v text)
  | parameter (id : Nat) : Canonical (parameter id)
  | apply (head : Head) {operands : List Node} (typing : Typing)
      (h : ∀ n ∈ operands, Canonical n) : Canonical (apply head operands typing)

theorem Canonical.retable (params : List Parameter) {node : Node} (h : Canonical node) :
    Canonical (node.retable params) := by
  induction h with
  | constant text h => exact .constant text h
  | parameter id => exact .parameter id
  | apply head typing _ ih =>
    rw [Node.retable, retableAll_eq_map]
    exact .apply _ _ (by simpa using ih)

theorem canonical_strengthenAll {nodes : List Node}
    (ih : ∀ n ∈ nodes, ∀ target params, Canonical (strengthen target n params).1)
    (h : ∀ n ∈ nodes, Canonical n) (targets : List ValueType) (params : List Parameter) :
    ∀ n ∈ (strengthenAll targets nodes params).1, Canonical n := by
  induction nodes generalizing targets params with
  | nil => simp [strengthenAll]
  | cons n rest hrest =>
    have hn := ih n (List.mem_cons_self ..)
    have htail := fun m hm => h m (List.mem_cons_of_mem n hm)
    cases targets with
    | nil => exact h
    | cons target targets =>
      rw [strengthenAll]
      split
      · next n' params' fault heq =>
        have hn := hn target params
        rw [heq] at hn
        exact List.forall_mem_cons.mpr ⟨hn, htail⟩
      · next n' params' heq =>
        have hn := hn target params
        rw [heq] at hn
        exact List.forall_mem_cons.mpr ⟨hn,
          hrest (fun m hm => ih m (List.mem_cons_of_mem n hm)) htail targets params'⟩

theorem Canonical.strengthen {node : Node} (h : Canonical node) (target : ValueType)
    (params : List Parameter) : Canonical (node.strengthen target params).1 := by
  induction h generalizing target params with
  | constant text h => exact .constant text h
  | parameter id =>
    rw [Node.strengthen]
    split <;> exact .parameter id
  | apply head typing h ih =>
    rw [Node.strengthen]
    split
    · exact .apply _ _ h
    · split
      · exact .apply _ _ h
      · exact .apply _ _ (canonical_strengthenAll ih h _ _)

theorem canonical_lowerAll {params : List Parameter} {nodes : List Node}
    (ih : ∀ n ∈ nodes, ∀ target b b' result, n.lower params target b = .ok (result, b') →
      b.Sound → b.Canonical → b'.Canonical)
    {targets : List ValueType} {b b' : Builder} {results : List Nat}
    (h : lowerAll params targets nodes b = .ok (results, b')) (hb : b.Sound)
    (hcanonical : b.Canonical) : b'.Canonical := by
  induction nodes generalizing targets b results with
  | nil =>
    rw [lowerAll] at h
    obtain ⟨-, rfl⟩ := Prod.mk.inj (Except.ok.inj h)
    exact hcanonical
  | cons n rest hrest =>
    cases targets with
    | nil =>
      rw [lowerAll] at h
      · obtain ⟨-, rfl⟩ := Prod.mk.inj (Except.ok.inj h)
        exact hcanonical
      · simp
    | cons target targets =>
      rw [lowerAll] at h
      obtain ⟨⟨register, b₁⟩, hn, h⟩ := bind_eq_ok_iff.mp h
      obtain ⟨⟨registers, b₂⟩, htail, h⟩ := bind_eq_ok_iff.mp h
      obtain ⟨-, rfl⟩ := Prod.mk.inj (Except.ok.inj h)
      exact hrest (fun m hm => ih m (List.mem_cons_of_mem n hm)) htail (lower_computes hn hb).1
        (ih n (List.mem_cons_self ..) target b b₁ register hn hb hcanonical)

/-- Lowering puts only canonical literals into the table. -/
theorem Canonical.lower {params : List Parameter} {target : ValueType} {node : Node}
    {b b' : Builder} {result : Nat} (h : Canonical node)
    (hlower : node.lower params target b = .ok (result, b')) (hb : b.Sound)
    (hcanonical : b.Canonical) : b'.Canonical := by
  induction h generalizing target b b' result with
  | constant text hv =>
    rw [Node.lower] at hlower
    split at hlower
    · cases hlower
    · next w hw =>
      obtain ⟨⟨place, b₁⟩, hliteral, hlower⟩ := bind_eq_ok_iff.mp hlower
      obtain ⟨⟨dest, b₂⟩, hdest, hlower⟩ := bind_eq_ok_iff.mp hlower
      obtain ⟨-, rfl⟩ := Prod.mk.inj (Except.ok.inj hlower)
      obtain ⟨-, rfl⟩ := Builder.allocate_eq_ok hdest
      have hkept : b₁.Canonical :=
        hcanonical.addLiteral hb (Value.canonical_of_convert hv hw) hliteral
      exact hkept
  | parameter id =>
    rw [Node.lower] at hlower
    obtain ⟨place, -, hlower⟩ := bind_eq_ok_iff.mp hlower
    split at hlower
    · cases hlower
    · obtain ⟨⟨dest, b₁⟩, hdest, hlower⟩ := bind_eq_ok_iff.mp hlower
      obtain ⟨-, rfl⟩ := Builder.allocate_eq_ok hdest
      dsimp only at hlower
      split at hlower
      · intro v hv
        rw [Builder.literals_of_widen hlower] at hv
        exact hcanonical v hv
      · obtain ⟨-, rfl⟩ := Prod.mk.inj (Except.ok.inj hlower)
        exact hcanonical
  | apply head typing _ ih =>
    rw [Node.lower] at hlower
    split at hlower
    · cases hlower
    · obtain ⟨⟨results, b₁⟩, hall, hlower⟩ := bind_eq_ok_iff.mp hlower
      obtain ⟨⟨dest, b₂⟩, hdest, hlower⟩ := bind_eq_ok_iff.mp hlower
      obtain ⟨b₃, happly, hwiden⟩ := bind_eq_ok_iff.mp hlower
      obtain ⟨-, rfl⟩ := Builder.allocate_eq_ok hdest
      have hliterals : b'.literals = b₁.literals := by
        rw [Builder.literals_of_widen hwiden, Builder.literals_of_emitApplication happly]
      intro v hv
      rw [hliterals] at hv
      exact canonical_lowerAll (fun n hn _ _ _ _ => ih n hn) hall hb hcanonical v hv

end Node

/-! ### Terms that both evaluations treat alike -/

namespace Term

mutual

/-- Whether no constant is the negative zero and every function is deterministic. -/
def isReproducible : Term → Bool
  | constant value _ => value ≠ .numeric (-0)
  | parameter _ => true
  | unary _ operand => operand.isReproducible
  | binary _ left right => left.isReproducible && right.isReproducible
  | call f args => f.isDeterministic && allReproducible args

/-- Whether both evaluations treat all of the terms alike. -/
def allReproducible : List Term → Bool
  | [] => true
  | a :: rest => a.isReproducible && allReproducible rest

end

theorem allReproducible_iff {terms : List Term} :
    allReproducible terms = true ↔ ∀ a ∈ terms, a.isReproducible = true := by
  induction terms with
  | nil => simp [allReproducible]
  | cons a rest ih => simp [allReproducible, ih]

theorem isReproducible_of_parts? {term : Term} {head : Head} {operands : List Term}
    (h : term.parts? = some (head, operands)) (hterm : term.isReproducible = true) :
    (∀ f, head = .call f → f.isDeterministic = true) ∧
      ∀ a ∈ operands, a.isReproducible = true := by
  cases term with
  | constant v text => simp [parts?] at h
  | parameter id => simp [parts?] at h
  | unary op operand =>
    obtain ⟨rfl, rfl⟩ := Prod.mk.inj (Option.some.inj h)
    simpa [isReproducible] using hterm
  | binary op left right =>
    obtain ⟨rfl, rfl⟩ := Prod.mk.inj (Option.some.inj h)
    simpa [isReproducible] using hterm
  | call f args =>
    obtain ⟨rfl, rfl⟩ := Prod.mk.inj (Option.some.inj h)
    simpa [isReproducible, allReproducible_iff] using hterm

theorem canonical_full {term : Term} (h : term.isReproducible = true) : term.full.Canonical := by
  induction term using Term.induct with
  | constant v text =>
    exact .constant text (Value.canonical_eq_self (by simpa [isReproducible] using h))
  | parameter id => exact .parameter id
  | compound term head operands hparts ih =>
    rw [full_of_parts? hparts, Node.undetermined]
    refine .apply _ _ fun n hn => ?_
    obtain ⟨a, ha, rfl⟩ := List.mem_map.mp hn
    exact ih a ha ((isReproducible_of_parts? hparts h).2 a ha)

end Term

/-! ### Agreement -/

/-- Evaluation with types follows evaluation without: it fails with it, or makes its value, which
is of type `own`, into the type asked for. -/
def Follows (own target : ValueType) (plain : Except MachineFault Value)
    (typed : Except MachineFault (Value × Nat)) : Prop :=
  match plain with
  | .error fault => typed = .error fault
  | .ok v => v.type = own ∧ ∃ w calls, v.convert target = .ok w ∧ typed = .ok (w, calls)

/-- The full tree of a term is of one natural type, and for all that this type converts to, the
meaning of the tree follows the value of the term. -/
structure Term.HasNatural (env : Environment) (ps : List Parameter) (term : Term) (e : Cost) :
    Prop where
  concrete : e.internal ≠ .unknown
  table : term.full.table ps = CostTable.single e.cost e.internal e.choice
  follows : ∀ t, (conversionCost? e.internal t).isSome → ∀ calls,
    Follows e.internal t (term.eval env)
      ((Node.strengthen t (term.full.retable ps) ps).1.meaning env ps t calls)

namespace Term

variable {env : Environment} {ps : List Parameter}

theorem HasNatural.offers_iff {term : Term} {e : Cost} (h : HasNatural env ps term e)
    (t : ValueType) :
    ((term.full.table ps).get? t).isSome = (conversionCost? e.internal t).isSome := by
  rw [h.table, CostTable.get?_single, Option.isSome_map]

theorem exists_naturals {terms : List Term} (h : ∀ a ∈ terms, ∃ e, HasNatural env ps a e) :
    ∃ es, List.Forall₂ (HasNatural env ps) terms es := by
  induction terms with
  | nil => exact ⟨[], .nil⟩
  | cons a rest ih =>
    obtain ⟨e, he⟩ := h a (List.mem_cons_self ..)
    obtain ⟨es, hes⟩ := ih fun b hb => h b (List.mem_cons_of_mem _ hb)
    exact ⟨e :: es, .cons he hes⟩

theorem map_table_eq_singles {terms : List Term} {es : List Cost}
    (h : List.Forall₂ (HasNatural env ps) terms es) :
    (terms.map full).map (Node.table ps) = singles es := by
  induction h with
  | nil => rfl
  | cons ha _ ih => simpa [singles, ha.table] using ih

/-- Operands fail together, or have values that are widened for the overload. -/
theorem follows_meaningAll {terms : List Term} {es : List Cost}
    (h : List.Forall₂ (HasNatural env ps) terms es) {targets : List ValueType}
    (hlen : targets.length = terms.length)
    (hoffers : ∀ (i : Nat) t n, targets[i]? = some t → (terms.map full)[i]? = some n →
      ((n.table ps).get? t).isSome) (calls : Nat) :
    match evalAll env terms with
    | .error fault =>
      Node.meaningAll env ps targets
        (List.zipWith (fun t n => (Node.strengthen t (n.retable ps) ps).1) targets
          (terms.map full)) calls = .error fault
    | .ok values => values.map Value.type = es.map Cost.internal ∧ ∃ widened calls',
      Node.meaningAll env ps targets
        (List.zipWith (fun t n => (Node.strengthen t (n.retable ps) ps).1) targets
          (terms.map full)) calls = .ok (widened, calls') ∧
        List.Forall₂ Value.Widening values widened ∧ widened.map Value.type = targets := by
  induction h generalizing targets calls with
  | nil =>
    obtain rfl := List.length_eq_zero_iff.mp hlen
    exact ⟨rfl, [], calls, rfl, .nil, rfl⟩
  | @cons a e rest es ha _ ih =>
    obtain _ | ⟨t, targets⟩ := targets
    · simp at hlen
    have hoffer : (conversionCost? e.internal t).isSome := by
      rw [← ha.offers_iff]
      exact hoffers 0 t a.full rfl rfl
    have hfollows := ha.follows t hoffer calls
    simp only [evalAll, List.map_cons, List.zipWith_cons_cons, Node.meaningAll]
    cases heval : a.eval env with
    | error fault =>
      rw [heval] at hfollows
      simp only [Follows] at hfollows
      rw [hfollows]
      rfl
    | ok v =>
      rw [heval] at hfollows
      obtain ⟨hv, w, calls₁, hw, hmeaning⟩ := hfollows
      have hrest := ih (by simpa using hlen) (fun i t n ht hn => hoffers (i + 1) t n ht hn) calls₁
      have htype : w.type = t := by
        rw [← hv] at hoffer
        obtain ⟨w', hw', htype⟩ := Value.exists_convert hoffer
        rw [hw] at hw'
        exact Except.ok.inj hw' ▸ htype
      rw [hmeaning]
      cases hevals : evalAll env rest with
      | error fault =>
        rw [hevals] at hrest
        simp only [ok_bind]
        rw [hrest]
        rfl
      | ok values =>
        rw [hevals] at hrest
        obtain ⟨htypes, widened, calls₂, hall, hwidened, hargs⟩ := hrest
        refine ⟨?_, w :: widened, calls₂, ?_, .cons (.of_convert hw) hwidened, ?_⟩
        · rw [List.map_cons, hv, htypes]
        · simp only [ok_bind, hall]
          rfl
        · rw [List.map_cons, htype, hargs]

/-- Of operands with natural types, a head that accepts them has a natural overload. -/
theorem exists_natural_of_offer {head : Head} {operands : List Term} {es : List Cost}
    (hcount : head.takes operands.length) (h : List.Forall₂ (HasNatural env ps) operands es)
    (hoffer : ∃ t, ((Typing.costsFor (head.signatures operands.length) (singles es)).get? t).isSome) :
    ∃ s choice cost,
      Natural (head.signatures operands.length) (es.map Cost.internal) s choice cost := by
  have hlen : operands.length = (es.map Cost.internal).length := by
    rw [List.length_map]
    exact h.length_eq
  have hconcrete : ValueType.unknown ∉ es.map Cost.internal := by
    clear hoffer hcount hlen
    induction h with
    | nil => simp
    | cons ha _ ih =>
      rw [List.map_cons, List.mem_cons, not_or]
      exact ⟨Ne.symm ha.concrete, ih⟩
  obtain ⟨t, ht⟩ := hoffer
  obtain ⟨s', hs', hs'offer⟩ := Typing.isSome_get?_costsFor_iff.mp ht
  have hs'len : s'.args.length = es.length := by
    rw [Head.length_args hcount hs', hlen, List.length_map]
  rw [Signature.offer?_singles hs'len, Option.isSome_map] at hs'offer
  rw [hlen] at hcount hs' ⊢
  refine Head.exists_natural hconcrete hcount (Bool.eq_false_iff.mpr fun hempty => ?_)
  have hsome := Typing.isSome_get?_costsFor_iff.mpr ⟨s', hs', hs'offer⟩
  rw [CostTable.isEmpty_iff.mp hempty t] at hsome
  cases hsome

/-- For every type that it converts to, strong determination settles on the natural overload. -/
theorem exists_strengthen_eq {head : Head} {operands : List Term} {es : List Cost}
    (hpin : Pinned ps) (hcount : head.takes operands.length)
    (h : List.Forall₂ (HasNatural env ps) operands es) {s : Signature} {choice cost : Nat}
    (hs : Natural (head.signatures operands.length) (es.map Cost.internal) s choice cost)
    {t : ValueType} (ht : (conversionCost? s.result t).isSome) :
    (∀ (i : Nat) t n, s.args[i]? = some t → (operands.map full)[i]? = some n →
      ((n.table ps).get? t).isSome) ∧
    ∃ typing : Typing, typing.selected? = some (t, s) ∧
      (Node.strengthen t ((Node.undetermined head (operands.map full)).retable ps) ps).1 =
        .apply head (List.zipWith (fun t n => (Node.strengthen t (n.retable ps) ps).1) s.args
          (operands.map full)) typing := by
  have hargs {s' : Signature} (hs' : s' ∈ head.signatures operands.length) :
      s'.args.length = operands.length := Head.length_args hcount hs'
  have hsingle := hs.costsFor_eq fun s' hs' => (hargs hs').trans h.length_eq
  have hget : (((Node.undetermined head (operands.map full)).table ps).get? t).isSome := by
    rw [Node.undetermined, Node.table_apply, map_table_eq_singles h, List.length_map, hsingle,
      CostTable.get?_single, Option.isSome_map]
    exact ht
  obtain ⟨s', place, cost', hcheapest, -, hoffers⟩ := Node.exists_firstCheapest hget
  have hs' := hcheapest.getElem?
  rw [List.length_map] at hs'
  -- The table names the place of the natural overload for every type.
  obtain rfl : s' = s := by
    have hentry := (Typing.get?_costsFor_eq_some_iff (e := ⟨cost', s'.result, place⟩)).mpr
      ⟨s', hcheapest, rfl⟩
    rw [map_table_eq_singles h, List.length_map, hsingle, CostTable.get?_single] at hentry
    obtain ⟨conversion, -, hentry⟩ := Option.map_eq_some_iff.mp hentry
    have hplace : choice = place := congrArg Cost.choice hentry
    exact Option.some.inj (hs'.symm.trans (hplace ▸ hs.getElem?))
  refine ⟨hoffers, _, ?_, congrArg Prod.fst (Node.strengthen_apply_eq hcheapest ?_ ?_)⟩
  · simp [Typing.selected?, hs']
  · rw [hargs (List.mem_of_getElem? hs'), List.length_map]
  · intro i t n ht hn
    obtain ⟨a, -, rfl⟩ := List.mem_map.mp (List.mem_of_getElem? hn)
    exact (Node.strengthen_retable hpin a.formed_full (hoffers i t _ ht hn)).1

/-- The tree of an application has a natural type if its operands have, and follows the term. -/
theorem hasNatural_compound {term : Term} {head : Head} {operands : List Term} {es : List Cost}
    (hpin : Pinned ps) (hparts : term.parts? = some (head, operands))
    (hdeterministic : ∀ f, head = .call f → f.isDeterministic = true)
    (h : List.Forall₂ (HasNatural env ps) operands es)
    (htable : ∃ t, ((term.full.table ps).get? t).isSome) : ∃ e, HasNatural env ps term e := by
  have hcount := takes_of_parts? hparts
  have hfull : term.full.table ps =
      Typing.costsFor (head.signatures operands.length) (singles es) := by
    rw [full_of_parts? hparts, Node.undetermined, Node.table_apply, map_table_eq_singles h,
      List.length_map]
  obtain ⟨s, choice, cost, hs⟩ := exists_natural_of_offer hcount h (hfull ▸ htable)
  have hmem := List.mem_of_getElem? hs.getElem?
  have hsingle := hfull.trans
    (hs.costsFor_eq fun s' hs' => (Head.length_args hcount hs').trans h.length_eq)
  have hconcrete : s.result ≠ .unknown := by
    obtain ⟨t, ht⟩ := htable
    rw [hsingle, CostTable.get?_single, Option.isSome_map] at ht
    exact (ne_unknown_of_conversionCost? ht).1
  refine ⟨⟨_, s.result, choice⟩, hconcrete, hsingle, fun t ht calls => ?_⟩
  obtain ⟨hoffers, typing, hselected, hsettled⟩ := exists_strengthen_eq hpin hcount h hs ht
  have hall := follows_meaningAll h (Head.length_args hcount hmem) hoffers calls
  rw [full_of_parts? hparts, hsettled, eval_of_parts? hparts, Node.meaning, hselected]
  cases hevals : evalAll env operands with
  | error fault =>
    rw [hevals] at hall
    simp only [hall]
    rfl
  | ok values =>
    rw [hevals] at hall
    obtain ⟨htypes, widened, calls', hmeaning, hwidened, hargs⟩ := hall
    have hlen : values.length = operands.length := by
      have := congrArg List.length htypes
      rw [List.length_map, List.length_map] at this
      rw [this, h.length_eq]
    rw [← hlen, ← htypes] at hs
    have hrun := Head.run_widening env (env.draws calls') hdeterministic hs hwidened hargs
    have hfits := Head.fits_run env s.comparesNumbers (env.draws calls') hmem hargs
    simp only [hmeaning, ok_bind, hrun]
    rw [hrun] at hfits
    cases hvalue : head.run env true 0 values with
    | error fault => rfl
    | ok v =>
      rw [hvalue] at hfits
      have hv : v.type = s.result := hfits
      obtain ⟨w, hw, -⟩ := Value.exists_convert (hv ▸ ht)
      refine ⟨hv, w, head.countCall calls', hw, ?_⟩
      have hwiden : v.widened s.result t = .ok w := by
        rw [← hv, Value.widened_type, hw]
        rfl
      rw [ok_bind, hwiden]
      rfl

/-- The meaning of the full tree follows the value of the term. -/
theorem meaning_full (hpin : Pinned ps) (hsupplies : Supplies ps env.args)
    (hliteral : ∀ v, v.canonical = v → env.literal v = v) {term : Term}
    (hterm : term.isReproducible = true) (htable : ∃ t, ((term.full.table ps).get? t).isSome) :
    ∃ e, HasNatural env ps term e := by
  induction term using Term.induct with
  | constant v text =>
    refine ⟨⟨0, v.type, 0⟩, v.type_ne_unknown, ?_, fun t ht calls => ?_⟩
    · exact CostTable.leaf_of v.type_ne_unknown
    · obtain ⟨w, hw, -⟩ := Value.exists_convert ht
      have hv : v.canonical = v := Value.canonical_eq_self (by simpa [isReproducible] using hterm)
      refine ⟨rfl, w, calls, hw, ?_⟩
      have hkept := hliteral w (Value.canonical_of_convert hv hw)
      simp only [full, Node.retable, Node.strengthen, Node.meaning, hw, Program.lift, ok_bind, hkept]
      rfl
  | parameter id =>
    obtain ⟨own, hown⟩ : ∃ own, (maskAt ps id).supports own = true := by
      obtain ⟨t, ht⟩ := htable
      rw [full, Node.table_parameter, CostTable.isSome_get?_leaf, List.any_eq_true] at ht
      obtain ⟨own, hown, -⟩ := ht
      exact ⟨own, TypeMask.mem_types_iff.mp hown⟩
    have hne := TypeMask.ne_unknown_of_supports hown
    obtain ⟨p, hp, hmask⟩ := hpin.mask_eq_of hown
    obtain ⟨v, hv, rfl⟩ := hsupplies id p own hp hmask hne
    refine ⟨⟨0, v.type, 0⟩, hne, ?_, fun t ht calls => ?_⟩
    · rw [full, Node.table_parameter, maskAt, hp, Option.map_some, Option.getD_some, hmask]
      exact CostTable.leaf_of hne
    · obtain ⟨w, hw, -⟩ := Value.exists_convert ht
      have hsettled : (Node.strengthen t ((parameter id).full.retable ps) ps).1 = .parameter id := by
        rw [full, Node.retable, Node.strengthen]
        split <;> rfl
      have hwiden : v.widened v.type t = .ok w := by
        rw [Value.widened_type, hw]
        rfl
      rw [hsettled, eval, hv]
      refine ⟨rfl, w, calls, hw, ?_⟩
      simp only [Node.meaning, hp, hv, hmask, TypeMask.single?_of hne, hwiden]
      rfl
  | compound term head operands hparts ih =>
    obtain ⟨hdeterministic, hoperands⟩ := isReproducible_of_parts? hparts hterm
    have hoffered : ∀ a ∈ operands, ∃ t, ((a.full.table ps).get? t).isSome := by
      intro a ha
      obtain ⟨t, ht⟩ := htable
      rw [full_of_parts? hparts] at ht
      obtain ⟨s, place, cost, hs, -, hoffers⟩ := Node.exists_firstCheapest ht
      have hlen := Head.length_args (by simpa using takes_of_parts? hparts) hs.mem
      obtain ⟨i, hi⟩ := List.mem_iff_getElem?.mp ha
      have hlt : i < s.args.length := by
        rw [hlen, List.length_map]
        exact (List.getElem?_eq_some_iff.mp hi).1
      exact ⟨s.args[i], hoffers i _ _ (List.getElem?_eq_getElem hlt) (by simp [hi])⟩
    obtain ⟨es, hes⟩ := exists_naturals fun a ha => ih a ha (hoperands a ha) (hoffered a ha)
    exact hasNatural_compound hpin hparts hdeterministic hes htable

theorem eval_literal (env : Environment) (literal : Value → Value) (term : Term) :
    term.eval { env with literal } = term.eval env := by
  induction term using Term.induct with
  | constant v text => rw [eval, eval]
  | parameter id => rw [eval, eval]
  | compound term head operands hparts ih =>
    have hall : evalAll { env with literal } operands = evalAll env operands := by
      clear hparts
      induction operands with
      | nil => rfl
      | cons a rest hrest =>
        rw [evalAll, evalAll, ih a (List.mem_cons_self ..),
          hrest fun b hb => ih b (List.mem_cons_of_mem _ hb)]
    rw [eval_of_parts? hparts, eval_of_parts? hparts, hall]
    rfl

/-- An assembled tree prefers what the full one prefers, and both are lowered to the same. -/
theorem lower_full {term : Term} {params : List Parameter} (hpin : Pinned ps)
    (hwidens : Widens ps params) {node : Node} {params' : List Parameter}
    (hassemble : term.assemble params = (.ok node, params')) (hnode : node.Typable ps)
    {target : ValueType} (hpreferred : (node.table ps).preferred? = some target) :
    (term.full.table ps).preferred? = some target ∧ ∀ b,
      (Node.strengthen target (node.retable ps) ps).1.lower ps target b =
        (Node.strengthen target (term.full.retable ps) ps).1.lower ps target b := by
  have hfull : term.full.Typable ps := (assemble_restricts hassemble).2.typable hnode
  obtain ⟨node', params'', hassemble', -, hcovers⟩ := assemble_covers hpin hfull hwidens
  obtain ⟨rfl, rfl⟩ : node = node' ∧ params' = params'' := by simpa [hassemble] using hassemble'
  obtain ⟨-, hsame, hsettled⟩ := hcovers.agree hpin hfull term.formed_full
  rw [hsame] at hpreferred
  refine ⟨hpreferred, fun b => ?_⟩
  rw [← Node.lower_outline, (hsettled target hpreferred).2.2, Node.lower_outline]

/-- The program of what an assembled tree settles on evaluates the term. -/
theorem run_assembled {term : Term} (hterm : term.isReproducible = true) {params : List Parameter}
    (hpin : Pinned ps) (hwidens : Widens ps params) {args : List Value}
    (hsupplies : Supplies ps args) {node : Node} {params' : List Parameter}
    (hassemble : term.assemble params = (.ok node, params')) (hnode : node.Typable ps)
    {target : ValueType} (hpreferred : (node.table ps).preferred? = some target) {result : Nat}
    {b : Builder}
    (hlower : (Node.strengthen target (node.retable ps) ps).1.lower ps target {} = .ok (result, b))
    (registry : Registry) (draws : Draws) (tolerance : Option Tolerance.Kind) :
    (b.finish result tolerance).run registry draws args =
      term.eval { registry, draws, tolerance, literal := id, args } := by
  obtain ⟨hpreferred, hsame⟩ := lower_full hpin hwidens hassemble hnode hpreferred
  rw [hsame] at hlower
  obtain ⟨hb, hrun⟩ := Node.run_finish hlower registry draws tolerance args
  have hcanonical : b.Canonical := (((canonical_full hterm).retable _).strengthen _ _).lower hlower
    Builder.sound_empty Builder.canonical_empty
  obtain ⟨e, he⟩ : ∃ e, HasNatural ⟨registry, draws, tolerance, b.literal, args⟩ ps term e :=
    meaning_full hpin hsupplies (fun v hv => hcanonical.literal_eq hb hv) hterm
      ⟨target, CostTable.isSome_get?_of_preferred? hpreferred⟩
  -- The natural type is preferred, so nothing is converted in the end.
  rw [he.table, CostTable.preferred?_single _ _ he.concrete] at hpreferred
  obtain rfl := Option.some.inj hpreferred
  have hfollows := he.follows e.internal (by simp [conversionCost?_self he.concrete]) 0
  rw [hrun, ← eval_literal _ b.literal]
  cases hvalue : term.eval ⟨registry, draws, tolerance, b.literal, args⟩ with
  | error fault =>
    rw [hvalue] at hfollows
    rw [show Node.meaning _ ps e.internal _ 0 = .error fault from hfollows]
    rfl
  | ok v =>
    rw [hvalue] at hfollows
    obtain ⟨hv, w, calls, hw, hmeaning⟩ := hfollows
    rw [← hv, Value.convert_self] at hw
    rw [hmeaning, ← Except.ok.inj hw]
    rfl

/-- Running the program of an assembled tree evaluates the term. Whenever arguments whose types lie
in the masks of the parameters let the tree be refreshed, determined for the type it prefers and
lowered, the program gives the value of the term on values as they are, with no conversion, or
fails as it does. -/
theorem run_lowered {term : Term} (hterm : term.isReproducible = true)
    {params params' : List Parameter} {node : Node}
    (hassemble : term.assemble params = (.ok node, params')) {args : List Value}
    (hlen : args.length = params'.length) (hwithin : Within (args.map Value.type) params')
    {ps : List Parameter} (hps : ps = pin params' (args.map Value.type))
    {refreshed settled : Node} (hrefresh : node.refresh ps = (refreshed, none))
    {target : ValueType} (hpreferred : (refreshed.costs ps).preferred? = some target)
    {ps' : List Parameter} (hstrengthen : refreshed.strengthen target ps = (settled, ps', none))
    {result : Nat} {b : Builder} (hlower : settled.lower ps' target {} = .ok (result, b))
    (registry : Registry) (draws : Draws) (tolerance : Option Tolerance.Kind) :
    (b.finish result tolerance).run registry draws args =
      term.eval { registry, draws, tolerance, literal := id, args } := by
  have htypes : ValueType.unknown ∉ args.map Value.type := by
    intro hmem
    obtain ⟨v, -, hv⟩ := List.mem_map.mp hmem
    exact v.type_ne_unknown hv
  have hpin : Pinned ps := hps ▸ pinned_pin htypes
  have hsupplies : Supplies ps args := hps ▸ supplies_pin
  -- The assembled tree covers the full one, and settles on the same overloads.
  obtain ⟨hnode, rfl⟩ := Node.refresh_eq_iff.mp hrefresh
  obtain ⟨hnarrows, hrestricts⟩ := assemble_restricts hassemble
  have hfull : term.full.Typable ps := hrestricts.typable hnode
  have hwidens : Widens ps params := by
    rw [hps]
    exact (widens_pin_iff htypes (by simpa using hlen)).mpr fun id t ht =>
      hnarrows.2 id t (hwithin id t ht)
  obtain ⟨node', params'', hassemble', -, hcovers⟩ := assemble_covers hpin hfull hwidens
  obtain ⟨rfl, rfl⟩ : node = node' ∧ params' = params'' := by simpa [hassemble] using hassemble'
  obtain ⟨-, hsame, hsettled⟩ := hcovers.agree hpin hfull term.formed_full
  have hpreferred' : (term.full.table ps).preferred? = some target := hsame ▸ hpreferred
  obtain ⟨hparams, -, houtline⟩ := hsettled target hpreferred'
  rw [hstrengthen] at hparams houtline
  obtain rfl : ps' = ps := congrArg Prod.fst hparams
  -- So the program is that of the full tree, whose meaning follows the term.
  rw [← Node.lower_outline, houtline, Node.lower_outline] at hlower
  obtain ⟨hb, hrun⟩ := Node.run_finish hlower registry draws tolerance args
  have hcanonical : b.Canonical := (((canonical_full hterm).retable _).strengthen _ _).lower hlower
    Builder.sound_empty Builder.canonical_empty
  have hoffer := CostTable.isSome_get?_of_preferred? hpreferred'
  obtain ⟨e, he⟩ : ∃ e, HasNatural ⟨registry, draws, tolerance, b.literal, args⟩ ps' term e :=
    meaning_full hpin hsupplies (fun v hv => hcanonical.literal_eq hb hv) hterm ⟨target, hoffer⟩
  obtain rfl : e.internal = target := by
    rw [he.table, CostTable.preferred?_single _ _ he.concrete] at hpreferred'
    exact Option.some.inj hpreferred'
  have hfollows := he.follows e.internal (by simp [conversionCost?_self he.concrete]) 0
  rw [hrun, ← eval_literal _ b.literal]
  cases hvalue : term.eval ⟨registry, draws, tolerance, b.literal, args⟩ with
  | error fault =>
    rw [hvalue] at hfollows
    rw [show Node.meaning _ ps' e.internal _ 0 = .error fault from hfollows]
    rfl
  | ok v =>
    rw [hvalue] at hfollows
    obtain ⟨hv, w, calls, hw, hmeaning⟩ := hfollows
    rw [← hv, Value.convert_self] at hw
    rw [hmeaning, ← Except.ok.inj hw]
    rfl

theorem eq_ok_of_isSome {ε α : Type} {x : Except ε α} (h : x.toOption.isSome = true) (d : α) :
    x = .ok (x.toOption.getD d) := by
  cases x with
  | error fault => cases h
  | ok a => rfl

/-- Dividing `x + y` by `y`, for the integers 7 and 2: the sum is one of integers, and only the
division is one of doubles. -/
theorem run_lowered_quotient :
    let term : Term := .binary (.operate .divide)
      (.binary (.operate .add) (.parameter 0) (.parameter 1)) (.parameter 1)
    let params : List Parameter := [⟨"x", TypeMask.all⟩, ⟨"y", TypeMask.all⟩]
    let args : List Value := [.integer 7, .integer 2]
    term.isReproducible = true ∧ ∃ node params' refreshed settled ps' result b,
      term.assemble params = (.ok node, params') ∧ args.length = params'.length ∧
        Within (args.map Value.type) params' ∧
        node.refresh (pin params' (args.map Value.type)) = (refreshed, none) ∧
        (refreshed.costs (pin params' (args.map Value.type))).preferred? = some .numeric ∧
        refreshed.strengthen .numeric (pin params' (args.map Value.type)) = (settled, ps', none) ∧
        settled.lower ps' .numeric {} = .ok (result, b) ∧
        (b.finish result none).run Registry.empty (fun _ => 0) args = .ok (.numeric 4.5) := by
  intro term params args
  have hterm : term.isReproducible = true := by decide
  let node := (term.assemble params).1.toOption.getD default
  let params' := (term.assemble params).2
  let ps := pin params' (args.map Value.type)
  let refreshed := (node.refresh ps).1
  let settled := (refreshed.strengthen .numeric ps).1
  let ps' := (refreshed.strengthen .numeric ps).2.1
  let lowered := (settled.lower ps' .numeric {}).toOption.getD (0, {})
  have hassemble : term.assemble params = (.ok node, params') :=
    Prod.ext (eq_ok_of_isSome (x := (term.assemble params).1) (by decide +kernel) default) rfl
  have hlower : settled.lower ps' .numeric {} = .ok lowered :=
    eq_ok_of_isSome (x := settled.lower ps' .numeric {}) (by decide +kernel) (0, {})
  have hlen : args.length = params'.length := by decide +kernel
  have hwithin : Within (args.map Value.type) params' := by
    rintro (_ | _ | id) t ht
    · obtain rfl := Option.some.inj ht
      decide +kernel
    · obtain rfl := Option.some.inj ht
      decide +kernel
    · cases ht
  have hrefresh : (node.refresh ps).2 = none := by decide +kernel
  have hpreferred : (refreshed.costs ps).preferred? = some .numeric := by decide +kernel
  have hstrengthen : (refreshed.strengthen .numeric ps).2.2 = none := by decide +kernel
  refine ⟨hterm, node, params', refreshed, settled, ps', lowered.1, lowered.2, hassemble, hlen,
    hwithin, Prod.ext rfl hrefresh, hpreferred, Prod.ext rfl (Prod.ext rfl hstrengthen), hlower, ?_⟩
  have hrun := run_lowered hterm hassemble hlen hwithin rfl (Prod.ext rfl hrefresh) hpreferred
    (Prod.ext rfl (Prod.ext rfl hstrengthen)) hlower Registry.empty (fun _ => 0) none
  exact hrun.trans (by decide +kernel)

end Term

end Formula
