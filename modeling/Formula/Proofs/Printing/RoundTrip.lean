import Formula.Expression
import Formula.Proofs.Compile.SplitBudget
import Formula.Proofs.Printing.Building

/-!
# Compiling a printed expression

The tree of a printed expression is built from the tables, symbol after symbol. The ranks of the
symbols on the way to an operand go down, so no symbol is met twice and the nesting is bounded by
the number of symbols. Every negation and every operator takes one split. So the printed text of an
expression compiles to a tree of that expression, up to the folding of constants, if it has no more
operators than splits are tried.

## Main results

* `TreeBuilder.candidates_operation`, `TreeBuilder.splitCall?_call`: how texts of symbols are read.
* `Context.Ready.builds_buildWithin`: every operand is built to a tree of its expression.
* `Compiler.expression_text`: a printed expression compiles to itself.
-/

namespace Formula

open Text

/-! ### Functions and operators on numbers -/

/-- Functions that accept any numbers work on numbers. -/
theorem Phrase.admits_call {f : Function} (h : f ∈ functions) :
    Family.arithmetic.Admits (.call f) f.arity := by
  have hoverload : ∀ f ∈ functions, ∃ t ∈ Family.arithmetic.types,
      ⟨List.replicate f.arity Family.arithmetic.goal, t⟩ ∈ (Head.call f).signatures f.arity := by
    decide
  have hresult : ∀ f ∈ functions, ∀ s ∈ (Head.call f).signatures f.arity,
      (∀ t ∈ s.args, t ∈ Family.arithmetic.types) → s.result ∈ Family.arithmetic.types := by
    decide
  exact ⟨trivial, hoverload f h, hresult f h⟩

theorem Phrase.admits_negate : Family.arithmetic.Admits (.unary .negate) 1 :=
  Family.admits_of_mem_heads (List.mem_cons_self ..) rfl

theorem Phrase.admits_binary {op : Operation} (h : op ∈ Family.arithmetic.operations) :
    Family.arithmetic.Admits (.binary (.operate op)) 2 :=
  Family.admits_of_mem_heads (List.mem_cons_of_mem _ (List.mem_map_of_mem h)) rfl

/-! ### How texts are read -/

namespace TreeBuilder

variable {style : Precedence} {ctx : Context}

theorem tokens_common (style : Precedence) (ctx : Context) :
    (common style ctx).tokens = Context.CallTokens.common :=
  Compiler.tokens_common style

theorem unary_common (style : Precedence) (ctx : Context) :
    (common style ctx).unary = [(.negate, ['-']), (.not, ['!'])] := by
  change [(UnaryOp.negate, (Compiler.common style).tokens.markers.marked _),
    (UnaryOp.not, (Compiler.common style).tokens.markers.marked _)] = _
  cases style <;> rfl

/-- The operators in a text that is read are those of its form. -/
theorem mem_marks_or_isWordChar {form : Form} {text : Text} (h : form.Reads text) {c : Char}
    (hc : c ∈ text) : c ∈ Family.arithmetic.marks ∨ isWordChar c = true := by
  cases h with
  | negation ha =>
    rcases List.mem_cons.mp hc with rfl | hc
    · exact .inl (by decide)
    · exact .inr (ha.word c hc)
  | operation hop ha hb =>
    rcases List.mem_append.mp hc with hc | hc
    · exact .inr (ha.word c hc)
    · rcases List.mem_cons.mp hc with rfl | hc
      · exact .inl (Family.mark_mem_marks hop)
      · exact .inr (hb.word c hc)

/-- An operator is in no word. -/
theorem getElem?_word_ne_mark {x : Text} (h : Form.IsWord x) {op : Operation}
    (hop : op ∈ Family.arithmetic.operations) (i : Nat) : x[i]? ≠ some op.mark := fun hget => by
  have hword := h.word _ (List.mem_of_getElem? hget)
  rw [Family.isWordChar_of_mem_marks (Family.mark_mem_marks hop)] at hword
  cases hword

/-- A text with one operator is split there and nowhere else. -/
theorem candidates_operation {op : Operation} {a b : Text}
    (hop : op ∈ Family.arithmetic.operations) (ha : Form.IsWord a) (hb : Form.IsWord b) :
    (common style ctx).candidates (a ++ op.mark :: b) =
      [⟨.operate op, op.tier style, a.length, 1⟩] := by
  have hchars (c : Char) (hc : c ∈ a ++ op.mark :: b) :=
    mem_marks_or_isWordChar (.operation hop ha hb) hc
  have hcount : Family.arithmetic.markCount (a ++ op.mark :: b) = 1 := by
    have hnone {x : Text} (hx : Form.IsWord x) : x.countP (· ∈ Family.arithmetic.marks) = 0 := by
      refine List.countP_eq_zero.mpr fun c hc hmark => ?_
      have hword := hx.word c hc
      rw [Family.isWordChar_of_mem_marks (of_decide_eq_true hmark)] at hword
      cases hword
    have hmark := Family.mark_mem_marks hop
    rw [Family.markCount, List.countP_append, List.countP_cons, hnone ha, hnone hb]
    simp [hmark]
  have hlen : ((common style ctx).candidates (a ++ op.mark :: b)).length ≤ 1 :=
    hcount ▸ length_candidates_le hchars
  have hmem : (⟨.operate op, op.tier style, a.length, 1⟩ : Split) ∈
      (common style ctx).candidates (a ++ op.mark :: b) := by
    have hpos := List.length_pos_iff.mpr ha.ne_nil
    have hpos' := List.length_pos_iff.mpr hb.ne_nil
    refine (mem_candidates_iff hchars).mpr ⟨op, hop, rfl, by simp, hpos, ?_⟩
    simp only [List.length_append, List.length_cons]
    omega
  obtain ⟨s, hs⟩ := List.length_eq_one_iff.mp
    (Nat.le_antisymm hlen (List.length_pos_of_mem hmem))
  rw [hs, List.mem_singleton] at hmem
  rw [hs, hmem]

/-- A negation is not split. -/
theorem candidates_negation {a : Text} (h : Form.IsWord a) :
    (common style ctx).candidates ('-' :: a) = [] := by
  refine List.eq_nil_iff_forall_not_mem.mpr fun s hs => ?_
  obtain ⟨o, ho, -, hget, hpos, -⟩ :=
    (mem_candidates_iff fun c hc => mem_marks_or_isWordChar (.negation h) hc).mp hs
  obtain ⟨n, hn⟩ := Nat.exists_eq_succ_of_ne_zero (Nat.ne_of_gt hpos)
  rw [hn, List.getElem?_cons_succ] at hget
  exact getElem?_word_ne_mark h ho n hget

theorem unaryWays_negation {a : Text} (h : Form.IsWord a) (build : Text → BuildM Node) :
    (common style ctx).unaryWays build ('-' :: a) =
      [build a >>= fun operand => assemble (.unary .negate) [operand]] := by
  obtain ⟨c, a, rfl⟩ := List.exists_cons_of_ne_nil h.ne_nil
  rw [unaryWays, unary_common]
  rfl

/-- The text of a call is split into the name of the function and the operands. -/
theorem splitCall?_call {f : Function} (hf : f ∈ Phrase.functions) (operands : List Text) :
    (common style ctx).splitCall? (Context.CallTokens.common.call f.name.toList operands) =
      some (f.name.toList, [','].intercalate operands) := by
  obtain ⟨c, rest, hname, hletter, -, hchars⟩ := Phrase.exists_name hf
  rw [Context.CallTokens.call_common, hname]
  have hword : ((c :: rest) ++ '(' :: ([','].intercalate operands ++ [')'])).takeWhile
      (fun c => isLetter c || isNumeral c || c == '_') = c :: rest := by
    rw [List.takeWhile_append_of_pos fun d hd => (hchars d hd).2,
      List.takeWhile_cons_of_neg (by decide), List.append_nil]
  rw [List.cons_append, splitCall?, ← List.cons_append, hletter, hword, tokens_common]
  rw [Bool.true_or, if_pos rfl]
  dsimp only
  -- the longest word is tried first, and an open parenthesis follows it
  rw [List.length_cons, List.range_succ_eq_map, List.findSome?_cons, Nat.sub_zero,
    ← List.length_cons, List.drop_left, List.take_left]
  simp [Context.CallTokens.common, after?, before?_append_singleton]

end TreeBuilder

/-! ### Building the forms of symbols -/

namespace Glossary

variable {g : Glossary} {params : List Parameter} {style : Precedence} {ctx : Context}

/-- The only way of building a text is tried. -/
theorem builds_firstSuccess {way : BuildM Node} {cost : Nat} {Q : Node → Prop}
    (h : g.Builds params way cost fun node => ∀ text, Q (node.fold Registry.standard text))
    (text : Text) :
    g.Builds params ((TreeBuilder.common style ctx).firstSuccess text [way]) (cost + 1)
      fun found => ∃ node, found = some node ∧ Q node := by
  rw [TreeBuilder.firstSuccess]
  refine (builds_attempt (t := TreeBuilder.common style ctx) h text).bind fun found hfound => ?_
  obtain ⟨node, rfl, hnode⟩ := hfound
  exact builds_pure ⟨node, rfl, hnode⟩

section Forms

variable {build : Text → BuildM Node}

/-- A text with one operator is built from its operands. -/
theorem builds_buildComposite {form : Form} {text : Text} (h : form.Reads text)
    (hbuild : ∀ x ∈ form.operands,
      g.Builds params (build x) (g.phrase x).operators ((g.phrase x).Built params)) :
    g.Builds params ((TreeBuilder.common style ctx).buildComposite build text)
      (form.phrase g.phrase).operators ((form.phrase g.phrase).Built params) := by
  have hcall : (TreeBuilder.common style ctx).splitCall? text = none := by
    have hopen : '(' ∉ text := fun hmem => by
      rcases TreeBuilder.mem_marks_or_isWordChar h hmem with hmark | hword
      · exact absurd hmark (by decide)
      · exact absurd hword (by decide)
    refine TreeBuilder.splitCall?_eq_none ?_ hopen
    rw [TreeBuilder.tokens_common]
    exact List.mem_singleton_self _
  rw [TreeBuilder.buildComposite, hcall, TreeBuilder.binaryWays_eq_map]
  cases h with
  | @negation a ha =>
    have hway : g.Builds params (build a >>= fun n => TreeBuilder.assemble (.unary .negate) [n])
        (g.phrase a).operators fun node => ∀ text,
          (Phrase.negate (g.phrase a)).Built params (node.fold Registry.standard text) := by
      refine (hbuild a (List.mem_singleton_self a)).bind fun n hn => ?_
      exact builds_assemble Phrase.admits_negate (List.forall_mem_singleton.mpr hn.serves)
        (.negate hn.shape)
    rw [TreeBuilder.candidates_negation ha]
    rw [Form.phrase, Phrase.operators, ← Nat.zero_add (_ + 1)]
    -- there is nothing to split, so the prefix operator comes off
    refine builds_bind (builds_pure (Q := fun found => found = none) rfl) fun found hfound => ?_
    subst hfound
    dsimp only
    rw [TreeBuilder.unaryWays_negation ha]
    refine (builds_firstSuccess hway _).bind fun found hfound => ?_
    obtain ⟨node, rfl, hnode⟩ := hfound
    exact builds_pure hnode
  | @operation op a b hop ha hb =>
    have hway : g.Builds params (build a >>= fun m => build b >>= fun n =>
          TreeBuilder.assemble (.binary (.operate op)) [m, n])
        ((g.phrase a).operators + (g.phrase b).operators) fun node => ∀ text,
          (Phrase.binary op (g.phrase a) (g.phrase b)).Built params
            (node.fold Registry.standard text) := by
      refine builds_bind (hbuild a (List.mem_cons_self ..)) fun m hm => ?_
      refine (hbuild b (List.mem_cons_of_mem _ (List.mem_singleton_self b))).bind fun n hn => ?_
      exact builds_assemble (Phrase.admits_binary hop)
        (List.forall_mem_cons.mpr ⟨hm.serves, List.forall_mem_singleton.mpr hn.serves⟩)
        (.binary hm.shape hn.shape)
    rw [TreeBuilder.candidates_operation hop ha hb]
    rw [List.map_singleton, TreeBuilder.splitWay_append, Form.phrase, Phrase.operators]
    refine (builds_firstSuccess hway _).bind fun found hfound => ?_
    obtain ⟨node, rfl, hnode⟩ := hfound
    exact builds_pure hnode

/-- A call is built from its operands. -/
theorem builds_buildCall {f : Function} {names : List Text} (hf : f ∈ Phrase.functions)
    (hcount : names.length = f.arity) (hwords : ∀ x ∈ names, Form.IsWord x)
    (hbuild : ∀ x ∈ names,
      g.Builds params (build x) (g.phrase x).operators ((g.phrase x).Built params)) :
    g.Builds params ((TreeBuilder.common style ctx).buildCall build
        (Context.CallTokens.common.call f.name.toList names))
      (Phrase.call f (names.map g.phrase)).operators
      ((Phrase.call f (names.map g.phrase)).Built params) := by
  have hne : names ≠ [] := by
    rintro rfl
    exact absurd hcount.symm (Nat.ne_of_gt (Phrase.arity_pos hf))
  have hsplit : splitAll [','] ([','].intercalate names) = names :=
    splitAll_intercalate hne fun x hx => (hwords x hx).not_mem (by decide)
  have hinner : [','].intercalate names ≠ [] := by
    intro hnil
    rw [hnil] at hsplit
    have hwhole : splitAll [','] [] = [[]] := rfl
    exact (hwords [] (hsplit ▸ hwhole ▸ List.mem_singleton_self _)).ne_nil rfl
  have hlookup : Function.lookup? (String.ofList f.name.toList) names.length = some f := by
    rw [String.ofList_toList, hcount, Phrase.lookup?_name hf]
  rw [TreeBuilder.buildCall, TreeBuilder.splitCall?_call hf, TreeBuilder.tokens_common]
  dsimp only
  rw [if_neg hinner, show Context.CallTokens.common.separator = [','] from rfl, hsplit, hlookup,
    Phrase.operators, List.map_map]
  refine (builds_mapM hbuild).bind fun nodes hnodes => ?_
  obtain ⟨hlen, hget⟩ := List.forall₂_iff_get.mp hnodes
  have hserves (n : Node) (hn : n ∈ nodes) :
      Family.arithmetic.Serves (Family.arithmetic.pinned params) n := by
    obtain ⟨i, hi, rfl⟩ := List.mem_iff_getElem.mp hn
    exact (hget i (hlen ▸ hi) hi).serves
  refine (builds_assemble (e := .call f (names.map g.phrase)) (by
    rw [← hlen, hcount]
    exact Phrase.admits_call hf) hserves (.call (by simp [hlen]) fun i e n he hn => ?_)).bind
      fun node hnode => builds_pure (hnode _)
  rw [List.getElem?_map, Option.map_eq_some_iff] at he
  obtain ⟨x, hx, rfl⟩ := he
  obtain ⟨hi, rfl⟩ := List.getElem?_eq_some_iff.mp hx
  obtain ⟨hi', rfl⟩ := List.getElem?_eq_some_iff.mp hn
  exact (hget i hi hi').shape

end Forms

end Glossary

/-! ### Building the symbols -/

namespace Context.Ready

variable {g : Glossary} {ctx : Context} (h : Ready g ctx) {style : Precedence}
  {build : Text → BuildM Node} {cost : Nat} {Q : Node → Prop}

theorem parameterIndex?_eq_none {s : BuildState} (hs : g.Kept ctx.params s) {key : Text}
    (hkey : String.ofList key ∉ ctx.params.map Parameter.name) :
    parameterIndex? s.params key = none := by
  refine List.findIdx?_eq_none_iff.mpr fun p hp => beq_false_of_ne fun heq => hkey ?_
  rw [← heq, String.ofList_toList, ← hs.names]
  exact List.mem_map_of_mem hp

theorem exists_parameterIndex? {s : BuildState} (hs : g.Kept ctx.params s) {x : Text}
    (hx : String.ofList x ∈ ctx.params.map Parameter.name) :
    ∃ id, parameterIndex? s.params x = some id ∧ id < ctx.params.length ∧
      (ctx.params.map Parameter.name)[id]? = some (String.ofList x) := by
  cases hindex : parameterIndex? s.params x with
  | none =>
    rw [← hs.names] at hx
    obtain ⟨p, hp, heq⟩ := List.mem_map.mp hx
    have hne := List.findIdx?_eq_none_iff.mp hindex p hp
    rw [heq, String.toList_ofList, beq_self_eq_true] at hne
    cases hne
  | some id =>
    obtain ⟨hlt, heq, -⟩ := List.findIdx?_eq_some_iff_getElem.mp hindex
    refine ⟨id, rfl, hs.length_params ▸ hlt, ?_⟩
    rw [← hs.names, List.getElem?_map, List.getElem?_eq_getElem hlt, ← eq_of_beq heq,
      String.ofList_toList, Option.map_some]

/-- An integer is a constant. -/
theorem builds_literal {x : Text} {v : Value} (hvalue : Family.arithmetic.value? x = some v)
    (hconstant : ctx.constant? x = some ⟨v, x⟩) :
    g.Builds ctx.params ((TreeBuilder.common style ctx).buildStep build x) cost
      ((Phrase.literal x).Built ctx.params) := by
  intro s hs hcost
  rw [TreeBuilder.run_buildStep_constant (t := TreeBuilder.common style ctx) hconstant]
  refine Glossary.builds_pure ⟨?_, Family.serves_constant ?_ _⟩ s hs hcost
  · rw [Family.value?] at hvalue
    split at hvalue
    · obtain rfl := Option.some.inj hvalue
      exact .literal x
    · cases hvalue
  · exact PreparedChain.type_mem_of_value? hvalue

/-- A name of a parameter is the parameter with that name. -/
theorem builds_parameter {x : Text} (hconstant : ctx.constant? x = none)
    (hname : String.ofList x ∈ ctx.params.map Parameter.name) :
    g.Builds ctx.params ((TreeBuilder.common style ctx).buildStep build x) cost
      ((Phrase.parameter x).Built ctx.params) := by
  intro s hs hcost
  obtain ⟨id, hindex, hlt, hid⟩ := exists_parameterIndex? hs hname
  rw [TreeBuilder.run_buildStep_parameter (t := TreeBuilder.common style ctx) hconstant hindex]
  exact Glossary.builds_pure ⟨.parameter hid,
    Family.serves_parameter (Family.supports_maskAt_pinned hlt)⟩ s hs hcost

include h

/-- The name of a symbol leads to its text. -/
theorem builds_symbol {key : Text} {s : Symbol} (hs : ctx.symbol? key = some s)
    (htext : s.text ≠ key)
    (hbuild : g.Builds ctx.params (if s.isCall then (TreeBuilder.common style ctx).buildCall build
      s.text else build s.text) cost Q) :
    g.Builds ctx.params ((TreeBuilder.common style ctx).buildStep build key) cost Q := by
  obtain ⟨hconstant, hname⟩ := h.symbol key (by rw [hs]; rfl)
  intro s' hs' hcost
  rw [TreeBuilder.run_buildStep_symbol (t := TreeBuilder.common style ctx) hconstant
    (parameterIndex?_eq_none hs' hname) hs, if_neg htext]
  exact hbuild s' hs' hcost

/-- A text with an operator is built from its operands, and remembered. -/
theorem builds_text {form : Form} {text : Text} (htext : form.Reads text)
    (hbuild : ∀ x ∈ form.operands,
      g.Builds ctx.params (build x) (g.phrase x).operators ((g.phrase x).Built ctx.params)) :
    g.Builds ctx.params ((TreeBuilder.common style ctx).buildStep build text)
      (form.phrase g.phrase).operators ((form.phrase g.phrase).Built ctx.params) := by
  obtain ⟨hconstant, hsymbol, hname⟩ := h.composite text htext.exists_mark
  intro s hs hcost
  rw [TreeBuilder.run_buildStep_text (t := TreeBuilder.common style ctx) hconstant
    (parameterIndex?_eq_none hs hname) hsymbol]
  exact Glossary.builds_remember htext (Glossary.builds_buildComposite htext hbuild) s hs hcost

/-- A symbol is built from its operands, which may be nested one or two levels less. -/
theorem builds_form {key : Text} {depth : Nat} (hkey : (ctx.symbol? key).isSome)
    (hbuild : ∀ x, ctx.Resolves g x → g.rank x < g.rank key → ∀ d, depth ≤ d → d ≤ depth + 1 →
      g.Builds ctx.params ((TreeBuilder.common style ctx).buildWithin d x) (g.phrase x).operators
        ((g.phrase x).Built ctx.params)) :
    g.Builds ctx.params ((TreeBuilder.common style ctx).buildWithin (depth + 2) key)
      (g.phrase key).operators ((g.phrase key).Built ctx.params) := by
  obtain ⟨s, hs⟩ := Option.isSome_iff_exists.mp hkey
  obtain ⟨form, rfl, hproper, hphrase, hoperands⟩ := h.form key s hs
  have hword (x : Text) (hx : x ∈ form.operands) := (hoperands x hx).1
  have hoperand (d : Nat) (hle : depth ≤ d) (hlt : d ≤ depth + 1) (x : Text)
      (hx : x ∈ form.operands) :=
    hbuild x (hoperands x hx).2.1 (hoperands x hx).2.2 d hle hlt
  -- a text with other characters than those of words is no name
  have hother {c : Char} (hc : c ∈ form.symbol.text) (hnot : isWordChar c = false) :
      form.symbol.text ≠ key := by
    rintro rfl
    rw [(h.composite _ ⟨c, hc, hnot⟩).2.1] at hs
    cases hs
  rw [hphrase]
  change g.Builds _ (TreeBuilder.buildStep _ (TreeBuilder.buildWithin _ (depth + 1)) key) _ _
  cases form with
  | name y =>
    refine h.builds_symbol hs ?_
      (hoperand (depth + 1) (by omega) (by omega) y (List.mem_singleton_self y))
    rintro rfl
    exact Nat.lt_irrefl _ (hoperands y (List.mem_singleton_self y)).2.2
  | negation a =>
    refine h.builds_symbol hs (hother (List.mem_cons_self ..) (by decide)) ?_
    exact h.builds_text (.negation (hword a (List.mem_singleton_self a)))
      (hoperand depth (by omega) (by omega))
  | operation op a b =>
    refine h.builds_symbol hs (hother (List.mem_append_right _ (List.mem_cons_self ..))
      (Family.isWordChar_of_mem_marks (Family.mark_mem_marks hproper))) ?_
    exact h.builds_text (.operation hproper (hword a (List.mem_cons_self ..))
      (hword b (List.mem_cons_of_mem _ (List.mem_singleton_self b))))
      (hoperand depth (by omega) (by omega))
  | call f names =>
    have hopen : '(' ∈ (Form.call f names).symbol.text := by
      rw [Form.symbol, CallTokens.call_common]
      simp
    refine h.builds_symbol hs (hother hopen (by decide)) ?_
    exact Glossary.builds_buildCall hproper.1 hproper.2 hword
      (hoperand (depth + 1) (by omega) (by omega))

/-- An operand is built to a tree of its expression. The symbols on the path to it have higher
ranks, so none of them is met again; each takes two levels of nesting at most. -/
theorem builds_buildWithin {x : Text} (hx : ctx.Resolves g x) {path : List Text}
    (hnodup : path.Nodup)
    (hpath : ∀ key ∈ path, (ctx.symbol? key).isSome ∧ g.rank x < g.rank key) {depth : Nat}
    (hdepth : 2 * (ctx.symbols.length - path.length) < depth) :
    g.Builds ctx.params ((TreeBuilder.common style ctx).buildWithin depth x) (g.phrase x).operators
      ((g.phrase x).Built ctx.params) := by
  induction depth using Nat.strongRecOn generalizing x path with
  | _ depth ih =>
    cases hx with
    | literal hvalue hconstant hphrase =>
      obtain ⟨d, rfl⟩ : ∃ d, depth = d + 1 := ⟨depth - 1, by omega⟩
      rw [hphrase]
      exact builds_literal hvalue hconstant
    | parameter hconstant hname hphrase =>
      obtain ⟨d, rfl⟩ : ∃ d, depth = d + 1 := ⟨depth - 1, by omega⟩
      rw [hphrase]
      exact builds_parameter hconstant hname
    | symbol hsome =>
      have hnodup' : (x :: path).Nodup :=
        List.nodup_cons.mpr ⟨fun hmem => Nat.lt_irrefl _ (hpath x hmem).2, hnodup⟩
      have hsubset : x :: path ⊆ ctx.symbols.map Prod.fst := List.cons_subset.mpr
        ⟨isSome_symbol?_iff.mp hsome, fun key hkey => isSome_symbol?_iff.mp (hpath key hkey).1⟩
      have hlen := (List.subperm_of_subset hnodup' hsubset).length_le
      rw [List.length_cons, List.length_map] at hlen
      obtain ⟨d, rfl⟩ : ∃ d, depth = d + 2 := ⟨depth - 2, by omega⟩
      refine h.builds_form hsome fun y hy hlt d' hle hlt' => ?_
      refine ih d' (by omega) hy hnodup' (List.forall_mem_cons.mpr ⟨⟨hsome, hlt⟩, fun key hkey =>
        ⟨(hpath key hkey).1, hlt.trans (hpath key hkey).2⟩⟩) ?_
      rw [List.length_cons]
      omega

/-- The main symbol is built to a tree of its expression. -/
theorem builds_build (style : Precedence) (hmain : (ctx.symbol? mainName).isSome) :
    g.Builds ctx.params ((TreeBuilder.common style ctx).build mainName)
      (g.phrase mainName).operators ((g.phrase mainName).Built ctx.params) := by
  have hdepth : 2 * ctx.symbols.length < (TreeBuilder.common style ctx).depthBound := by
    change _ < (ctx.symbols.length + 1) * (_ + 2)
    calc
      2 * ctx.symbols.length < (ctx.symbols.length + 1) * 2 := by omega
      _ ≤ _ := Nat.mul_le_mul_left _ (Nat.le_add_left 2 _)
  exact h.builds_buildWithin (.symbol hmain) List.nodup_nil (fun _ hkey => absurd hkey (by simp))
    hdepth

theorem kept_start : g.Kept ctx.params { params := ctx.params } := by
  refine ⟨rfl, fun mask hmask => ?_, fun key entry hentry => ?_⟩
  · obtain ⟨p, hp, rfl⟩ := List.mem_map.mp hmask
    rw [h.supported p hp]
    rfl
  · simp at hentry

/-- The tables give a tree of the expression that the main symbol stands for. -/
theorem buildTree (style : Precedence) (hmain : (ctx.symbol? mainName).isSome)
    (hoperators : (g.phrase mainName).operators ≤ maxSplits) :
    ∃ node params, (Compiler.common style).buildTree ctx = .ok (node, params) ∧
      (g.phrase mainName).Matches Registry.standard (ctx.params.map Parameter.name) node ∧
      params.map Parameter.name = ctx.params.map Parameter.name := by
  obtain ⟨node, s, hrun, hs, -, hnode⟩ := h.builds_build style hmain { params := ctx.params }
    h.kept_start (by simpa using hoperators)
  have hwidens : Widens (Family.arithmetic.pinned ctx.params) s.params :=
    (Family.widens_pinned_iff hs.length_params).mpr hs.masks
  exact ⟨_, _, Compiler.buildTree_common h.cancelled hrun (hnode.serves.typable.mono hwidens),
    hnode.shape.restricts (.retable _ _), hs.names⟩

end Context.Ready

/-! ### Compiling the printed text -/

namespace Compiler

/-- The printed text of an expression compiles to the expression, up to folded constants. Its
parameters are listed once each, as they occur first. -/
theorem expression_text {style : Precedence} {c : Compiler}
    (hc : make { precedence := style } Registry.standard = .ok c) {e : Phrase} (h : e.IsPlain)
    (hoperators : e.operators ≤ maxSplits) :
    ∃ body, (c.expression (String.ofList e.text)).body = some body ∧
      e.Matches c.registry (body.params.map Parameter.name) body.root ∧
      body.params.map Parameter.name = e.parameters.eraseDups.map String.ofList := by
  rw [make_common] at hc
  obtain rfl := Except.ok.inj hc
  obtain ⟨ctx, g, hresolve, hready, hmain, rfl, hnames⟩ := h.resolve style
  obtain ⟨node, params, hbuild, hnode, hparams⟩ := hready.buildTree style hmain hoperators
  refine ⟨⟨node, params⟩, ?_, hparams ▸ hnode, hparams.trans hnames⟩
  rw [expression, String.toList_ofList, outcome_compile (h.extractLiterals style) hresolve, hbuild]
  rfl

/-- A negated minimum of a sum and a call: the parameter that occurs twice is listed once. -/
theorem expression_text_minimum :
    ∃ body, ((common .mathematical).expression "(-min((x+2),abs((y*x))))").body = some body ∧
      (Phrase.negate (.call .min [.binary .add (.parameter ['x']) (.literal ['2']),
        .call .abs [.binary .multiply (.parameter ['y']) (.parameter ['x'])]])).Matches
          Registry.standard (body.params.map Parameter.name) body.root ∧
      body.params.map Parameter.name = ["x", "y"] := by
  let e : Phrase := .negate (.call .min [.binary .add (.parameter ['x']) (.literal ['2']),
    .call .abs [.binary .multiply (.parameter ['y']) (.parameter ['x'])]])
  have hx : (Phrase.parameter ['x']).IsPlain := .parameter (by decide) (by decide)
  have hy : (Phrase.parameter ['y']).IsPlain := .parameter (by decide) (by decide)
  have hsum : (Phrase.binary .add (.parameter ['x']) (.literal ['2'])).IsPlain :=
    .binary (by decide) hx (.literal (by decide))
  have hproduct : (Phrase.binary .multiply (.parameter ['y']) (.parameter ['x'])).IsPlain :=
    .binary (by decide) hy hx
  have habs := Phrase.IsPlain.call (f := .abs) (by decide) rfl
    (List.forall_mem_singleton.mpr hproduct)
  have h : e.IsPlain := .negate (.call (by decide) rfl
    (List.forall_mem_cons.mpr ⟨hsum, List.forall_mem_singleton.mpr habs⟩))
  have htext : String.ofList e.text = "(-min((x+2),abs((y*x))))" := by
    simp only [e, Phrase.text, List.map_cons, List.map_nil]
    decide
  have hnames : e.parameters.eraseDups.map String.ofList = ["x", "y"] := by
    simp only [e, Phrase.parameters, List.flatMap_cons, List.flatMap_nil]
    decide
  have hoperators : e.operators = 3 := by
    simp [e, Phrase.operators]
  obtain ⟨body, hbody, hshape, hparams⟩ :=
    expression_text (make_common .mathematical) h (hoperators ▸ by decide)
  exact ⟨body, htext ▸ hbody, hshape, hparams.trans hnames⟩

end Compiler

end Formula
