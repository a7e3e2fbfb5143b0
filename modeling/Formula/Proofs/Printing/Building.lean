import Mathlib.Data.List.Forall2
import Formula.Proofs.Compile.Memo
import Formula.Proofs.Printing.Tables

/-!
# Building within a budget

The text of a symbol has at most one operator, so it is read in one way only and split once for
every operator. Building it succeeds if enough splits are left. The parameters are narrowed on the
way but may always be numbers, and every text that is remembered has been built to a tree of the
expression it is read as.

## Main definitions

* `Phrase.Matches`: a node has the shape of an expression, up to folded constants.
* `Phrase.Built`: it can produce a number as well.
* `Form.Reads`: a text is read as a negation, or as an operator with its operands.
* `Glossary.Kept`: the invariant of the state.
* `Glossary.Builds`: building succeeds with a number of splits, and keeps the invariant.

## Main results

* `Form.Reads.unique`: a text is read in one way only.
* `Glossary.builds_assemble`: operands that may be numbers are assembled.
* `Glossary.builds_attempt`, `Glossary.builds_remember`: splitting and remembering.
-/

namespace Formula

open Text

/-! ### Nodes with the shape of an expression -/

namespace Phrase

/-- A node has the shape of an expression: integers are constants, names are parameters, and
negations, operators and calls are applications. An application of constants that has been assembled
may be folded to its value. -/
inductive Matches (registry : Registry) (names : List String) : Phrase → Node → Prop
  | literal (digits : Text) : Matches registry names (.literal digits)
      (.constant (.integer (Int64.ofNat (Decimal.naturalOf digits))) (String.ofList digits))
  | parameter {name : Text} {id : Nat} (hname : names[id]? = some (String.ofList name)) :
      Matches registry names (.parameter name) (.parameter id)
  | negate {e : Phrase} {n : Node} {typing : Typing} (h : Matches registry names e n) :
      Matches registry names (.negate e) (.apply (.unary .negate) [n] typing)
  | binary {op : Operation} {l r : Phrase} {m n : Node} {typing : Typing}
      (hl : Matches registry names l m) (hr : Matches registry names r n) :
      Matches registry names (.binary op l r) (.apply (.binary (.operate op)) [m, n] typing)
  | call {f : Function} {args : List Phrase} {nodes : List Node} {typing : Typing}
      (hlen : nodes.length = args.length)
      (h : ∀ (i : Nat) (e : Phrase) (n : Node), args[i]? = some e → nodes[i]? = some n →
        Matches registry names e n) :
      Matches registry names (.call f args) (.apply (.call f) nodes typing)
  | folded {e : Phrase} {head : Head} {operands : List Node} {node : Node} {v : Value}
      {params params' : List Parameter} (h : Matches registry names e node)
      (hnode : Node.assemble head operands params = (.ok node, params'))
      (hconstants : node.isFoldable = true) (hvalue : node.constantValue? registry = some v)
      (text : String) : Matches registry names e (.constant v text)

namespace Matches

variable {registry : Registry} {names : List String}

/-- The shape does not depend on the overloads. -/
theorem restricts {e : Phrase} {u n : Node} (h : e.Matches registry names u)
    (hn : Restricts u n) : e.Matches registry names n := by
  induction h generalizing n with
  | literal digits =>
    cases hn
    exact .literal digits
  | parameter hname =>
    cases hn
    exact .parameter hname
  | negate _ ih =>
    cases hn with
    | apply hlen _ hoperands =>
    obtain ⟨m, rfl⟩ := List.length_eq_one_iff.mp hlen.symm
    exact .negate (ih (hoperands 0 _ m rfl rfl))
  | binary _ _ ihl ihr =>
    cases hn with
    | apply hlen _ hoperands =>
    obtain ⟨l, r, rfl⟩ := List.length_eq_two.mp hlen.symm
    exact .binary (ihl (hoperands 0 _ l rfl rfl)) (ihr (hoperands 1 _ r rfl rfl))
  | @call f args nodes _ hlen _ ih =>
    cases hn with
    | apply hlen' _ hoperands =>
    refine .call (hlen'.symm.trans hlen) fun i e n he hn => ?_
    have hlt : i < nodes.length := hlen ▸ (List.getElem?_eq_some_iff.mp he).1
    have hu : nodes[i]? = some nodes[i] := List.getElem?_eq_getElem hlt
    exact ih i e _ he hu (hoperands i _ n hu hn)
  | folded h hnode hconstants hvalue text =>
    cases hn
    exact .folded h hnode hconstants hvalue text

theorem fold {e : Phrase} {head : Head} {operands : List Node} {node : Node}
    {params params' : List Parameter} (h : e.Matches registry names node)
    (hnode : Node.assemble head operands params = (.ok node, params')) (text : String) :
    e.Matches registry names (node.fold registry text) := by
  rw [Node.fold]
  split
  · next hconstants =>
    split
    · next v hv => exact .folded h hnode hconstants hv text
    · exact h
  · exact h

end Matches

/-- A node has the shape of an expression, and can produce a number if the parameters are
numbers. -/
structure Built (params : List Parameter) (e : Phrase) (node : Node) : Prop where
  shape : e.Matches Registry.standard (params.map Parameter.name) node
  serves : Family.arithmetic.Serves (Family.arithmetic.pinned params) node

end Phrase

/-! ### Readings of a text -/

namespace Form

/-- A text is read as a negation, or as an operator with its operands. -/
inductive Reads : Form → Text → Prop
  | negation {a : Text} (ha : IsWord a) : Reads (.negation a) ('-' :: a)
  | operation {op : Operation} {a b : Text} (hop : op ∈ Family.arithmetic.operations)
      (ha : IsWord a) (hb : IsWord b) : Reads (.operation op a b) (a ++ op.mark :: b)

/-- A text is read in one way only. -/
theorem Reads.unique {form form' : Form} {text : Text} (h : form.Reads text)
    (h' : form'.Reads text) : form = form' := by
  have hminus {op : Operation} {a b rest : Text} (ha : IsWord a)
      (heq : '-' :: rest = a ++ op.mark :: b) : False := by
    obtain ⟨c, a, rfl⟩ := List.exists_cons_of_ne_nil ha.ne_nil
    obtain ⟨rfl, -⟩ := List.cons.inj heq
    exact absurd (ha.word '-' (List.mem_cons_self ..)) (by decide)
  generalize htext : text = text' at h'
  cases h with
  | negation ha =>
    cases h' with
    | negation ha' => rw [(List.cons.inj htext).2]
    | operation _ ha' _ => exact (hminus ha' htext).elim
  | operation hop ha hb =>
    cases h' with
    | negation ha' => exact (hminus ha htext.symm).elim
    | operation hop' ha' hb' =>
      have hmark {op : Operation} (hop : op ∈ Family.arithmetic.operations) (b : Text) :
          ∀ c ∈ (op.mark :: b).head?, isIdentifierChar c = false := by
        rintro c ⟨⟩
        exact Family.isIdentifierChar_of_mem_marks (Family.mark_mem_marks hop)
      obtain rfl := eq_of_append_eq
        (fun c hc => isIdentifierChar_of_isWordChar (ha.word c hc))
        (fun c hc => isIdentifierChar_of_isWordChar (ha'.word c hc))
        (hmark hop _) (hmark hop' _) htext
      obtain ⟨hmarks, rfl⟩ := List.cons.inj (List.append_cancel_left htext)
      rw [Family.mark_injOn hop hop' hmarks]

/-- A text with an operator has a character that is none of words. -/
theorem Reads.exists_mark {form : Form} {text : Text} (h : form.Reads text) :
    ∃ c ∈ text, isWordChar c = false := by
  cases h with
  | negation _ => exact ⟨'-', List.mem_cons_self .., by decide⟩
  | @operation op a b hop _ _ =>
    exact ⟨op.mark, List.mem_append_right _ (List.mem_cons_self ..),
      Family.isWordChar_of_mem_marks (Family.mark_mem_marks hop)⟩

end Form

/-! ### The invariant -/

/-- The parameters are those of the tables and may be numbers, and the texts that are remembered
have been built to trees of the expressions they are read as. -/
structure Glossary.Kept (g : Glossary) (params : List Parameter) (s : BuildState) : Prop where
  names : s.params.map Parameter.name = params.map Parameter.name
  masks : ∀ mask ∈ s.masks, mask.supports .numeric = true
  built : ∀ (key : BuildKey) entry, s.built[key]? = some entry → ∀ form : Form,
    form.Reads key.text → ∃ node masks, entry = .ok (node, masks) ∧
      (form.phrase g.phrase).Built params node ∧ masks.length = params.length ∧
      ∀ mask ∈ masks, mask.supports .numeric = true

/-- Building succeeds with at most `cost` splits, if as many are left. It keeps the invariant and
its result satisfies `Q`. -/
def Glossary.Builds {α : Type} (g : Glossary) (params : List Parameter) (m : BuildM α) (cost : Nat)
    (Q : α → Prop) : Prop :=
  ∀ s, g.Kept params s → s.splits + cost ≤ maxSplits →
    ∃ a s', m.run s = (.ok a, s') ∧ g.Kept params s' ∧ s'.splits ≤ s.splits + cost ∧ Q a

namespace Glossary

variable {g : Glossary} {params : List Parameter} {α β : Type} {cost cost' : Nat}

/-! ### Rules -/

theorem builds_pure {Q : α → Prop} {a : α} (h : Q a) : g.Builds params (pure a) cost Q :=
  fun s hs _ => ⟨a, s, rfl, hs, Nat.le_add_right _ _, h⟩

theorem builds_bind {m : BuildM α} {f : α → BuildM β} {Q : α → Prop} {R : β → Prop}
    (hm : g.Builds params m cost Q) (hf : ∀ a, Q a → g.Builds params (f a) cost' R) :
    g.Builds params (m >>= f) (cost + cost') R := by
  intro s hs hcost
  obtain ⟨a, s₁, hrun, hs₁, hle, ha⟩ := hm s hs (by omega)
  obtain ⟨b, s₂, hrun', hs₂, hle', hb⟩ := hf a ha s₁ hs₁ (by omega)
  refine ⟨b, s₂, ?_, hs₂, by omega, hb⟩
  rw [BuildM.run_bind, hrun]
  exact hrun'

/-- What follows takes no splits. -/
theorem Builds.bind {m : BuildM α} {f : α → BuildM β} {Q : α → Prop} {R : β → Prop}
    (hm : g.Builds params m cost Q) (hf : ∀ a, Q a → g.Builds params (f a) 0 R) :
    g.Builds params (m >>= f) cost R :=
  builds_bind hm hf

theorem builds_mapM {f : Text → BuildM Node} {xs : List Text} {cost : Text → Nat}
    {Q : Text → Node → Prop} (h : ∀ x ∈ xs, g.Builds params (f x) (cost x) (Q x)) :
    g.Builds params (xs.mapM f) (xs.map cost).sum (List.Forall₂ Q xs) := by
  induction xs with
  | nil =>
    rw [List.mapM_nil]
    exact builds_pure .nil
  | cons x xs ih =>
    obtain ⟨hx, hxs⟩ := List.forall_mem_cons.mp h
    rw [List.mapM_cons, List.map_cons, List.sum_cons]
    refine builds_bind hx fun n hn => ?_
    exact (ih hxs).bind fun ns hns => builds_pure (.cons hn hns)

theorem Kept.length_params {s : BuildState} (h : g.Kept params s) :
    s.params.length = params.length := by
  simpa using congrArg List.length h.names

theorem Kept.withParams {s : BuildState} (h : g.Kept params s) {params' : List Parameter}
    (hnames : params'.map Parameter.name = params.map Parameter.name)
    (hmasks : ∀ mask ∈ params'.map Parameter.supported, mask.supports .numeric = true) :
    g.Kept params { s with params := params' } :=
  ⟨hnames, hmasks, h.built⟩

/-- Operands that may be numbers are assembled to a node that may be one. -/
theorem builds_assemble {head : Head} {operands : List Node} {e : Phrase}
    (hhead : Family.arithmetic.Admits head operands.length)
    (hoperands : ∀ n ∈ operands, Family.arithmetic.Serves (Family.arithmetic.pinned params) n)
    (hshape : e.Matches Registry.standard (params.map Parameter.name)
      (Node.undetermined head operands)) :
    g.Builds params (TreeBuilder.assemble head operands) 0
      fun node => ∀ text, e.Built params (node.fold Registry.standard text) := by
  intro s hs _
  obtain ⟨node, params', hassemble, hwidens, hserves⟩ := Family.serves_assemble
    (Family.arithmetic.pinned_pinned params) hhead hoperands
    ((Family.widens_pinned_iff hs.length_params).mpr hs.masks)
  have hnames : params'.map Parameter.name = params.map Parameter.name := by
    have hnarrows := Node.narrows_assemble head operands s.params
    rw [hassemble] at hnarrows
    exact hnarrows.1.trans hs.names
  have hlen : params'.length = params.length := by simpa using congrArg List.length hnames
  have hrun : (TreeBuilder.assemble head operands).run s =
      (.ok node, { s with params := params' }) := by
    rw [TreeBuilder.assemble, BuildM.run_bind, BuildM.run_get]
    dsimp only
    rw [hassemble]
    rfl
  refine ⟨node, _, hrun, hs.withParams hnames ((Family.widens_pinned_iff hlen).mp hwidens),
    Nat.le_refl _, fun text => ⟨?_, ?_⟩⟩
  · exact (hshape.restricts (Node.restricts_assemble hassemble)).fold hassemble text
  · exact Family.serves_fold hhead hoperands hassemble hserves Registry.standard text

/-- An attempt takes one split more than the way it tries. -/
theorem builds_attempt {way : BuildM Node} {Q : Node → Prop} {t : TreeBuilder}
    (h : g.Builds params way cost fun node => ∀ text, Q (node.fold t.registry text)) (text : Text) :
    g.Builds params (t.attempt text way) (cost + 1) fun found => ∃ node, found = some node ∧ Q node
    := by
  intro s hs hcost
  have hspent : g.Kept params (TreeBuilder.spent s) := ⟨hs.names, hs.masks, hs.built⟩
  have hsplits : (TreeBuilder.spent s).splits = s.splits + 1 := rfl
  obtain ⟨node, s', hrun, hs', hle, hnode⟩ := h _ hspent (by omega)
  refine ⟨_, s', ?_, hs', by omega, _, rfl, hnode (t.plain text)⟩
  rw [TreeBuilder.run_attempt, if_neg (by omega), hrun]

/-- The types that were remembered are those the parameters may have again. -/
theorem Kept.withMasks {s : BuildState} (h : g.Kept params s) {masks : List TypeMask}
    (hlen : masks.length = params.length) (hmasks : ∀ mask ∈ masks, mask.supports .numeric = true) :
    g.Kept params (s.withMasks masks) := by
  have hlen' : masks.length = s.params.length := hlen.trans h.length_params.symm
  refine ⟨(TreeBuilder.names_withMasks hlen').trans h.names, ?_, h.built⟩
  have heq : (s.withMasks masks).masks = masks := by
    refine List.ext_getElem (by simp [BuildState.masks, BuildState.withMasks, hlen'])
      fun i hi hi' => ?_
    simp [BuildState.masks, BuildState.withMasks]
  rwa [heq]

theorem Kept.remember {s : BuildState} (h : g.Kept params s) {key : BuildKey} {form : Form}
    (htext : form.Reads key.text) {node : Node} (hnode : (form.phrase g.phrase).Built params node) :
    g.Kept params { s with built := s.built.insert key (.ok (node, s.masks)) } := by
  refine ⟨h.names, h.masks, fun key' entry hentry form' hform' => ?_⟩
  rw [Std.HashMap.getElem?_insert] at hentry
  split at hentry
  · next heq =>
    obtain rfl := eq_of_beq heq
    obtain rfl := hform'.unique htext
    refine ⟨node, s.masks, (Option.some.inj hentry).symm, hnode, ?_, h.masks⟩
    rw [BuildState.masks, List.length_map, h.length_params]
  · exact h.built key' entry hentry form' hform'

/-- A text that is read is built once, and remembered with its tree. -/
theorem builds_remember {form : Form} {text : Text} (htext : form.Reads text) {build : BuildM Node}
    (h : g.Builds params build cost ((form.phrase g.phrase).Built params)) :
    g.Builds params (TreeBuilder.remember text build) cost
      ((form.phrase g.phrase).Built params) := by
  intro s hs hcost
  rw [TreeBuilder.run_remember]
  split
  · next entry hfound =>
    obtain ⟨node, masks, rfl, hnode, hlen, hmasks⟩ := hs.built _ _ hfound form htext
    exact ⟨node, _, rfl, hs.withMasks hlen hmasks, Nat.le_add_right _ _, hnode⟩
  · obtain ⟨node, s', hrun, hs', hle, hnode⟩ := h s hs hcost
    have hread : form.Reads (BuildKey.mk text s.masks).text := htext
    rw [hrun]
    exact ⟨node, _, rfl, hs'.remember hread hnode, hle, hnode⟩

end Glossary

end Formula
