import Formula.Proofs.Folding.Constant
import Formula.Proofs.Lowering.Signs

/-!
# Applications of constants inside a tree

An application of constants settles on the natural overload, whatever the rest of the tree asks of
it and whatever else the table of literals holds. So its head meets the same operands wherever it
stands, converted as the overload wants them, except that the table may have changed the sign of a
zero.

## Main results

* `settled_constants`: an application of constants, settled.
* `meaning_constants`: its meaning is that of its head on the converted constants.
* `isOk_meaning_constants`: whether it fails does not depend on where it stands.
* `Term.exists_constantValue?_meaning`: folding tries this meaning.
-/

namespace Formula

theorem Term.exists_parts?_eq {head : Head} {operands : List Term}
    (hcount : head.takes operands.length) : ∃ term, parts? term = some (head, operands) := by
  cases head with
  | unary op =>
    obtain ⟨a, rfl⟩ := List.length_eq_one_iff.mp hcount
    exact ⟨.unary op a, rfl⟩
  | binary op =>
    obtain ⟨a, b, rfl⟩ := List.length_eq_two.mp hcount
    exact ⟨.binary op a b, rfl⟩
  | call f => exact ⟨.call f operands, rfl⟩

theorem map_full_ofConstants (cs : List (Value × String)) :
    (Term.ofConstants cs).map Term.full = constants cs := by
  rw [Term.ofConstants, constants, List.map_map]
  rfl

namespace Term

variable {env : Environment} {ps : List Parameter}

/-- A constant has its own type, if the table of literals gives it back. -/
theorem hasNatural_constant (hliteral : env.literal = id) (v : Value) (text : String) :
    HasNatural env ps (.constant v text) ⟨0, v.type, 0⟩ where
  concrete := v.type_ne_unknown
  table := CostTable.leaf_of v.type_ne_unknown
  follows t ht calls := by
    obtain ⟨w, hw, -⟩ := Value.exists_convert ht
    refine ⟨rfl, w, calls, hw, ?_⟩
    simp only [full, Node.retable, Node.strengthen, Node.meaning, hw, hliteral, Program.lift, ok_bind]
    rfl

theorem forall₂_hasNatural_constants (hliteral : env.literal = id) (cs : List (Value × String)) :
    List.Forall₂ (HasNatural env ps) (ofConstants cs)
      ((constantTypes cs).map fun t => ⟨0, t, 0⟩) := by
  induction cs with
  | nil => exact .nil
  | cons c cs ih => exact .cons (hasNatural_constant hliteral c.1 c.2) ih

end Term

/-- The table of an application of constants is computed from their types. -/
theorem table_constants (head : Head) (cs : List (Value × String)) (ps : List Parameter) :
    (Node.undetermined head (constants cs)).table ps =
      Typing.costsFor (head.signatures cs.length)
        ((constantTypes cs).map fun t => CostTable.single 0 t 0) := by
  rw [Node.undetermined, Node.table_apply, map_table_constants, constants, List.length_map]

/-- Strong determination leaves constants as they are. -/
theorem zipWith_strengthen_constants {ps : List Parameter} {targets : List ValueType}
    {cs : List (Value × String)} (hlen : targets.length = cs.length) :
    List.zipWith (fun t n => (Node.strengthen t (n.retable ps) ps).1) targets (constants cs) =
      constants cs := by
  induction cs generalizing targets with
  | nil => simp [constants]
  | cons c cs ih =>
    obtain _ | ⟨t, targets⟩ := targets
    · simp at hlen
    have hrest := @ih targets (by simpa using hlen)
    rw [constants] at hrest
    rw [constants, List.map_cons, List.zipWith_cons_cons, hrest]
    rfl

/-- An application of constants settles on the natural overload, for every type that is asked of
it. -/
theorem settled_constants {ps : List Parameter} (hpin : Pinned ps) {head : Head}
    {cs : List (Value × String)} (hcount : head.takes cs.length) {t : ValueType}
    (ht : (((Node.undetermined head (constants cs)).table ps).get? t).isSome) :
    ∃ s choice cost typing,
      Natural (head.signatures cs.length) (constantTypes cs) s choice cost ∧
      (conversionCost? s.result t).isSome ∧ typing.selected? = some (t, s) ∧
      (∀ (i : Nat) t c, s.args[i]? = some t → cs[i]? = some c →
        (conversionCost? c.1.type t).isSome) ∧
      (Node.strengthen t ((Node.undetermined head (constants cs)).retable ps) ps).1 =
        .apply head (constants cs) typing := by
  let env : Environment := ⟨Registry.empty, fun _ => 0, none, id, []⟩
  have hnaturals : List.Forall₂ (Term.HasNatural env ps) _ _ :=
    Term.forall₂_hasNatural_constants rfl cs
  have hlen : (Term.ofConstants cs).length = cs.length := List.length_map ..
  have hinternal : ((constantTypes cs).map fun t => (⟨0, t, 0⟩ : Cost)).map Cost.internal =
      constantTypes cs := by
    rw [List.map_map]
    exact List.map_id _
  have htable := table_constants head cs ps
  obtain ⟨s, choice, cost, hs⟩ := Term.exists_natural_of_offer (hlen.symm ▸ hcount) hnaturals
    ⟨t, by rw [hlen, singles, List.map_map]; exact htable ▸ ht⟩
  rw [hlen, hinternal] at hs
  have hconv : (conversionCost? s.result t).isSome := by
    rwa [htable, hs.table, CostTable.get?_single, Option.isSome_map] at ht
  obtain ⟨hoffers, typing, hselected, hsettled⟩ := Term.exists_strengthen_eq hpin
    (hlen.symm ▸ hcount) hnaturals (by rwa [hlen, hinternal]) hconv
  rw [map_full_ofConstants] at hoffers hsettled
  refine ⟨s, choice, cost, typing, hs, hconv, hselected, fun i t c hti hci => ?_, ?_⟩
  · have hoffer := hoffers i t (.constant c.1 c.2) hti (by simp [constants, hci])
    rw [Node.table_constant, CostTable.leaf_of c.1.type_ne_unknown,
      CostTable.isSome_get?_offerConversions] at hoffer
    simpa using hoffer
  · rw [hsettled, zipWith_strengthen_constants
      (Head.length_args hcount (List.mem_of_getElem? hs.getElem?))]

/-- Constants are converted to what is asked of them, and the table of literals gives them back. -/
theorem meaningAll_constants (env : Environment) (ps : List Parameter) {targets : List ValueType}
    {cs : List (Value × String)} (hlen : targets.length = cs.length)
    (hconv : ∀ (i : Nat) t c, targets[i]? = some t → cs[i]? = some c →
      (conversionCost? c.1.type t).isSome) (calls : Nat) :
    ∃ widened, Node.meaningAll env ps targets (constants cs) calls =
        .ok (widened.map env.literal, calls) ∧
      List.Forall₂ Value.Widening (cs.map Prod.fst) widened ∧ widened.map Value.type = targets := by
  induction cs generalizing targets with
  | nil =>
    obtain rfl := List.length_eq_zero_iff.mp hlen
    exact ⟨[], rfl, .nil, rfl⟩
  | cons c cs ih =>
    obtain _ | ⟨t, targets⟩ := targets
    · simp at hlen
    obtain ⟨w, hw, htype⟩ := Value.exists_convert (hconv 0 t c rfl rfl)
    obtain ⟨widened, hall, hwidened, htypes⟩ := @ih targets (by simpa using hlen)
      fun i t c ht hc => hconv (i + 1) t c ht hc
    refine ⟨w :: widened, ?_, .cons (.of_convert hw) hwidened, by rw [List.map_cons, htype, htypes]⟩
    rw [constants] at hall
    simp only [constants, List.map_cons, Node.meaningAll, Node.meaning, hw, Program.lift, hall, ok_bind,
      pure, Except.pure]

/-- The meaning of an application of constants is that of its head on the constants, converted for
the natural overload and given back by the table of literals. -/
theorem meaning_constants {ps : List Parameter} (hpin : Pinned ps) {head : Head}
    {cs : List (Value × String)} (hcount : head.takes cs.length) {t : ValueType}
    (ht : (((Node.undetermined head (constants cs)).table ps).get? t).isSome) (env : Environment)
    (calls : Nat) :
    ∃ s choice cost widened,
      Natural (head.signatures cs.length) (constantTypes cs) s choice cost ∧
      (conversionCost? s.result t).isSome ∧
      List.Forall₂ Value.Widening (cs.map Prod.fst) widened ∧ widened.map Value.type = s.args ∧
      (Node.strengthen t ((Node.undetermined head (constants cs)).retable ps) ps).1.meaning env ps t
          calls = do
        let v ← head.run env s.comparesNumbers (env.draws calls) (widened.map env.literal)
        return (← v.widened s.result t, head.countCall calls) := by
  obtain ⟨s, choice, cost, typing, hs, hconv, hselected, hconstants, hsettled⟩ :=
    settled_constants hpin hcount ht
  obtain ⟨widened, hall, hwidened, htypes⟩ := meaningAll_constants env ps
    (Head.length_args hcount (List.mem_of_getElem? hs.getElem?)) hconstants calls
  refine ⟨s, choice, cost, widened, hs, hconv, hwidened, htypes, ?_⟩
  rw [hsettled, Node.meaning, hselected]
  simp only [hall, ok_bind]

/-- Whether an application of constants fails does not depend on where it stands. -/
theorem isOk_meaning_constants {ps : List Parameter} (hpin : Pinned ps) {head : Head}
    {cs : List (Value × String)} (hcount : head.takes cs.length) {t : ValueType}
    (ht : (((Node.undetermined head (constants cs)).table ps).get? t).isSome)
    (hdeterministic : ∀ f, head = .call f → f.isDeterministic = true) (env env' : Environment)
    (hliteral : ∀ v, (env.literal v).canonical = v.canonical) (calls : Nat) :
    ((Node.strengthen t ((Node.undetermined head (constants cs)).retable ps) ps).1.meaning env ps t
      calls).isOk = (head.run env' true 0 (cs.map Prod.fst)).isOk := by
  obtain ⟨s, choice, cost, widened, hs, hconv, hwidened, htypes, hmeaning⟩ :=
    meaning_constants hpin hcount ht env calls
  have hblank : List.Forall₂ Value.UpToSign (widened.map env.literal) widened := by
    rw [List.forall₂_map_left_iff, List.forall₂_same]
    exact fun v _ => .of_canonical (hliteral v)
  have hrefl : List.Forall₂ Value.UpToSign (cs.map Prod.fst) (cs.map Prod.fst) :=
    List.forall₂_same.mpr fun v _ => .refl v
  have hnatural : Natural (head.signatures (cs.map Prod.fst).length)
      ((cs.map Prod.fst).map Value.type) s choice cost := by
    rwa [List.length_map, List.map_map]
  have hrun : (head.run env s.comparesNumbers (env.draws calls) (widened.map env.literal)).isOk =
      (head.run env' true 0 (cs.map Prod.fst)).isOk := by
    rw [Head.isOk_run env env s.comparesNumbers s.comparesNumbers (env.draws calls) hdeterministic hblank,
      Head.run_widening env (env.draws calls) hdeterministic hnatural hwidened htypes]
    exact Head.isOk_run env env' true true 0 hdeterministic hrefl
  rw [hmeaning, ← hrun]
  have htypes' : (widened.map env.literal).map Value.type = s.args := by
    rw [List.map_map, ← htypes]
    exact List.map_congr_left fun v _ => (Value.UpToSign.of_canonical (hliteral v)).type_eq
  have hfits := Head.fits_run env s.comparesNumbers (env.draws calls)
    (List.mem_of_getElem? hs.getElem?) htypes'
  cases hv : head.run env s.comparesNumbers (env.draws calls) (widened.map env.literal) with
  | error fault => rfl
  | ok v =>
    rw [hv] at hfits
    obtain ⟨w, hw, -⟩ := Value.exists_widened (show (conversionCost? v.type t).isSome from
      (show v.type = s.result from hfits) ▸ hconv)
    rw [show v.type = s.result from hfits] at hw
    simp only [hw, ok_bind]
    rfl

/-- Folding tries the meaning of an application of constants, with a table of literals that may
change the sign of a zero. -/
theorem Term.exists_constantValue?_meaning {head : Head} {cs : List (Value × String)}
    (hcount : head.takes cs.length) {node : Node}
    (hnode : Node.assemble head (constants cs) [] = (.ok node, [])) (registry : Registry) :
    ∃ target literal, (((Node.undetermined head (constants cs)).table []).get? target).isSome ∧
      (∀ v : Value, (literal v).canonical = v.canonical) ∧
      node.constantValue? registry =
        (((Node.strengthen target ((Node.undetermined head (constants cs)).retable []) []).1.meaning
          ⟨registry, fun _ => 0, none, literal, []⟩ [] target 0).map Prod.fst).toOption := by
  obtain ⟨-, htypable, target, result, b, htarget, hlower, hvalue⟩ :=
    exists_constantValue?_eq hcount hnode registry
  obtain ⟨term, hparts⟩ : ∃ term, parts? term = some (head, ofConstants cs) :=
    exists_parts?_eq (by simpa [ofConstants] using hcount)
  have hassemble : term.assemble [] = (.ok node, []) := by
    rw [assemble_of_parts? hparts, assembleAll_ofConstants]
    exact hnode
  have hfull : term.full = Node.undetermined head (constants cs) := by
    rw [full_of_parts? hparts, map_full_ofConstants]
  obtain ⟨htarget, hsame⟩ := lower_full pinned_nil (fun _ _ h => h) hassemble htypable htarget
  rw [hfull] at htarget
  rw [hsame, hfull] at hlower
  obtain ⟨hb, hrun⟩ := Node.run_finish hlower registry (fun _ => 0) none []
  exact ⟨target, b.literal, CostTable.isSome_get?_of_preferred? htarget, hb.canonical_literal,
    by rw [hvalue, hrun]⟩

end Formula
