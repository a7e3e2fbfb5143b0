import Mathlib.Algebra.Order.BigOperators.Group.List
import Mathlib.Algebra.Order.Group.Nat
import Formula.Proofs.Printing.Draft

/-!
# Taking calls out of a printed text

In a printed text, an open parenthesis with a word before it belongs to a call, and the word is the
name of the function. The search takes a text apart piece by piece: a piece without a call stays as
it is, and a call is replaced by the name of its symbol once its arguments have been made operands.
What is left is a printed tree of operators, whose atoms are leaves of the source and names of
symbols, and which stands for the same expression.

## Main definitions

* `Context.Pulls`: taking the calls out of a piece of text.
* `Context.Extracted`: the calls of a printed text have been taken out.

## Main results

* `Context.extractCallsFrom_eq_ok_iff`: the two ways in which the search succeeds.
* `Context.pulls_self`, `Context.pulls_call`, `Context.Pulls.append`: pieces of text.
* `Phrase.IsPlain.extracted`: the calls of a printed text are taken out.
-/

namespace Formula

open Text

namespace Context

/-! ### The search -/

/-- Making operands of arguments does not depend on the bound of their lengths. -/
theorem extractArguments_bound {tokens : CallTokens} {whole : Text} {bound bound' : Nat}
    {args : List Text} (h : ∀ arg ∈ args, arg.length < bound)
    (h' : ∀ arg ∈ args, arg.length < bound') (ctx : Context) :
    extractArguments tokens whole bound args h ctx =
      extractArguments tokens whole bound' args h' ctx := by
  induction args generalizing ctx with
  | nil => rw [extractArguments, extractArguments]
  | cons arg rest ih =>
    rw [extractArguments, extractArguments]
    simp only [ih (fun a ha => h a (List.mem_cons_of_mem _ ha))
      fun a ha => h' a (List.mem_cons_of_mem _ ha)]

/-- The operands that arguments are made of, in the order of the arguments. -/
def Operands (tokens : CallTokens) (args : List Text) (ctx : Context) (operands : List Text)
    (ctx' : Context) : Prop :=
  ∀ whole bound h, extractArguments tokens whole bound args h ctx = .ok (operands, ctx')

/-- The search finds no call, or it takes out the first call and goes on after it. -/
theorem extractCallsFrom_eq_ok_iff {tokens : CallTokens} {whole rest text : Text}
    {ctx ctx' : Context} :
    extractCallsFrom tokens whole rest ctx = .ok (text, ctx') ↔
      findCall? tokens.opening rest = none ∧ text = rest ∧ ctx' = ctx ∨
      ∃ head name tail inner after operands ctx₁ text',
        findCall? tokens.opening rest = some (head, name, tail) ∧
        matchClose? tokens.opening tokens.closing 0 0 tail = some (inner, after) ∧
        (∃ bound h, extractArguments tokens whole bound (tokens.arguments inner) h ctx =
          .ok (operands, ctx₁)) ∧
        extractCallsFrom tokens whole after
          (ctx₁.addSymbol (tokens.call name operands) true).2 = .ok (text', ctx') ∧
        text = head ++ (ctx₁.addSymbol (tokens.call name operands) true).1 ++ text' := by
  rw [extractCallsFrom]
  constructor
  · intro h
    split at h
    · next hfind =>
      obtain ⟨rfl, rfl⟩ := Prod.mk.inj (Except.ok.inj h)
      exact .inl ⟨hfind, rfl, rfl⟩
    · next head name tail hfind =>
      split at h
      · cases h
      · next inner after hclose =>
        dsimp only at h
        split at h
        · cases h
        · next operands ctx₁ hargs =>
          split at h
          · cases h
          · next text' ctx₂ hrest =>
            obtain ⟨rfl, rfl⟩ := Prod.mk.inj (Except.ok.inj h)
            exact .inr ⟨head, name, tail, inner, after, operands, ctx₁, text', hfind, hclose,
              ⟨_, _, hargs⟩, hrest, rfl⟩
  · rintro (⟨hfind, rfl, rfl⟩ | ⟨head, name, tail, inner, after, operands, ctx₁, text', hfind,
      hclose, ⟨bound, hbound, hargs⟩, hrest, rfl⟩)
    · split
      · rfl
      · next hsome =>
        rw [hfind] at hsome
        cases hsome
    · split
      · next hnone =>
        rw [hfind] at hnone
        cases hnone
      · next hsome =>
        rw [hfind] at hsome
        cases hsome
        split
        · next hnone =>
          rw [hclose] at hnone
          cases hnone
        · next hsome =>
          rw [hclose] at hsome
          cases hsome
          dsimp only
          rw [extractArguments_bound _ hbound, hargs]
          dsimp only
          rw [hrest]

/-! ### Pieces of text -/

/-- No word goes over from one text to the next, and no call. -/
def Parted (u v : Text) : Prop :=
  (∀ c ∈ u.getLast?, isWordChar c = false) ∨ ∀ c ∈ v.head?, isWordChar c = false ∧ c ≠ '('

/-- Taking the calls out of a text that starts with `u` takes them out of `u` first, which leaves
`u'`, and then out of what follows. -/
def Pulls (u u' : Text) (ctx ctx' : Context) : Prop :=
  ∀ whole v v' ctx'', Parted u v →
    extractCallsFrom .common whole v ctx' = .ok (v', ctx'') →
    extractCallsFrom .common whole (u ++ v) ctx = .ok (u' ++ v', ctx'')

theorem Pulls.extractCallsFrom {u u' : Text} {ctx ctx' : Context} (h : Pulls u u' ctx ctx')
    (whole : Text) : extractCallsFrom .common whole u ctx = .ok (u', ctx') := by
  have hnil : Context.extractCallsFrom .common whole [] ctx' = .ok ([], ctx') :=
    extractCallsFrom_eq_ok_iff.mpr (.inl ⟨rfl, rfl, rfl⟩)
  simpa using h whole [] [] ctx' (.inr (by simp)) hnil

theorem Pulls.append {u u' w w' : Text} {a b c : Context} (hu : Pulls u u' a b)
    (hw : Pulls w w' b c) (hne : w ≠ []) (hparted : Parted u w) :
    Pulls (u ++ w) (u' ++ w') a c := by
  intro whole v v' ctx hv hrest
  rw [List.append_assoc, List.append_assoc]
  refine hu whole (w ++ v) (w' ++ v') ctx ?_ (hw whole v v' ctx ?_ hrest)
  · refine hparted.imp_right fun h d hd => h d ?_
    obtain ⟨e, w, rfl⟩ := List.exists_cons_of_ne_nil hne
    exact hd
  · refine hv.imp_left fun h d hd => h d ?_
    rw [List.getLast?_append, Option.mem_def.mp hd]
    rfl

/-- A part that is empty and stands alone is no argument. -/
theorem arguments_eq {tokens : CallTokens} {inner : Text} {parts : List Text}
    (h : splitTop tokens.opening tokens.closing tokens.separator 0 0 true inner = parts)
    (hne : parts ≠ [[]]) : tokens.arguments inner = parts := by
  rw [CallTokens.arguments]
  split
  · next hnil => exact absurd (h.symm.trans hnil) hne
  · exact h

/-- The call at a cut of a text, if the word before it is the name of a function. -/
def callAt? (p : Text × Text) : Option (Text × Text × Text) :=
  if isFunctionName (lastWord p.1).2 then some ((lastWord p.1).1, (lastWord p.1).2, p.2) else none

theorem findCall?_eq (opening text : Text) :
    findCall? opening text = (cuts opening text).findSome? callAt? := rfl

/-- The first call of a text is found in the same way after a text without calls. -/
theorem findCall?_append {u v : Text} (hu : ∀ p ∈ cuts ['('] u, callAt? p = none)
    (hparted : Parted u v) :
    findCall? ['('] (u ++ v) = (findCall? ['('] v).map fun p => (u ++ p.1, p.2) := by
  have hfirst : ((cuts ['('] u).map fun p => (p.1, p.2 ++ v)).findSome? callAt? = none := by
    rw [List.findSome?_eq_none_iff, List.forall_mem_map]
    intro p hp
    have := hu p hp
    rw [callAt?] at this ⊢
    split at this
    · cases this
    · next hnot => rw [if_neg hnot]
  have hlater (p : Text × Text) (hp : p ∈ cuts ['('] v) :
      callAt? (u ++ p.1, p.2) = (callAt? p).map fun q => (u ++ q.1, q.2) := by
    have hlast : lastWord (u ++ p.1) = (u ++ (lastWord p.1).1, (lastWord p.1).2) := by
      refine lastWord_append_left (hparted.imp_right fun h => ?_)
      have heq : v = p.1 ++ ['('] ++ p.2 := eq_append_of_mem_cuts hp
      cases hbefore : p.1 with
      | nil =>
        rw [heq, hbefore] at h
        exact absurd rfl (h '(' rfl).2
      | cons c before =>
        rw [heq, hbefore] at h
        exact ⟨c, List.mem_cons_self .., (h c rfl).1⟩
    rw [callAt?, callAt?, hlast]
    split <;> rfl
  rw [findCall?_eq, cuts_append, List.findSome?_append, hfirst, Option.none_or, findCall?_eq]
  generalize cuts ['('] v = l at hlater
  induction l with
  | nil => rfl
  | cons p l ih =>
    obtain ⟨hp, hl⟩ := List.forall_mem_cons.mp fun q hq => hlater q hq
    rw [List.map_cons, List.findSome?_cons, List.findSome?_cons, hp, ih hl]
    cases callAt? p <;> rfl

/-- A piece of text without calls stays as it is. -/
theorem pulls_self {u : Text} (hu : ∀ p ∈ cuts ['('] u, callAt? p = none) (ctx : Context) :
    Pulls u u ctx ctx := by
  intro whole v v' ctx' hparted hrest
  have hfind := findCall?_append hu hparted
  rw [extractCallsFrom_eq_ok_iff] at hrest ⊢
  rcases hrest with ⟨hnone, rfl, rfl⟩ | ⟨head, name, tail, inner, after, operands, ctx₁, text',
    hsome, hclose, hargs, hafter, rfl⟩
  · exact .inl ⟨hfind.trans (by rw [show findCall? ['('] v' = none from hnone]; rfl), rfl, rfl⟩
  · refine .inr ⟨u ++ head, name, tail, inner, after, operands, ctx₁, text', hfind.trans ?_, hclose,
      hargs, hafter, by simp⟩
    rw [show findCall? ['('] v = some (head, name, tail) from hsome]
    rfl

theorem pulls_word {u : Text} (hu : '(' ∉ u) (ctx : Context) : Pulls u u ctx ctx :=
  pulls_self (by rw [cuts_eq_nil (List.mem_singleton_self _) hu]; simp) ctx

theorem pulls_open (ctx : Context) : Pulls ['('] ['('] ctx ctx := by
  refine pulls_self (fun p hp => ?_) ctx
  have heq : cuts ['('] ['('] = [([], [])] := by decide
  rw [heq, List.mem_singleton] at hp
  subst hp
  rfl

/-- A call is replaced by the name of its symbol. -/
theorem pulls_call {f : Function} (hf : f ∈ Phrase.functions) {args operands : List Text}
    (hne : args ≠ []) (hnil : ∀ arg ∈ args, arg ≠ [])
    (hbalanced : ∀ arg ∈ args, Balanced false arg) {ctx ctx₁ : Context}
    (hoperands : Operands .common args ctx operands ctx₁) :
    Pulls (f.name.toList ++ '(' :: ([','].intercalate args ++ [')']))
      (ctx₁.addSymbol (CallTokens.common.call f.name.toList operands) true).1 ctx
      (ctx₁.addSymbol (CallTokens.common.call f.name.toList operands) true).2 := by
  intro whole v v' ctx' _ hrest
  rw [extractCallsFrom_eq_ok_iff]
  have hopen : '(' ∉ f.name.toList := fun hmem => by cases Phrase.isWordChar_of_mem_name hf hmem
  have hname : isFunctionName f.name.toList = true := by
    obtain ⟨c, rest, hcons, -, hstart, hchars⟩ := Phrase.exists_name hf
    have hidentifier : isIdentifier f.name.toList = true := by
      rw [hcons, isIdentifier, Bool.and_eq_true, List.all_eq_true]
      exact ⟨hstart, fun d hd =>
        isIdentifierChar_of_isWordChar (hchars d (List.mem_cons_of_mem _ hd)).1⟩
    rw [isFunctionName, hidentifier, String.ofList_toList, Phrase.isName_name hf]
    rfl
  have hfind : findCall? ['('] (f.name.toList ++ '(' :: ([','].intercalate args ++ ')' :: v)) =
      some ([], f.name.toList, [','].intercalate args ++ ')' :: v) := by
    rw [findCall?_eq, cuts_append, cuts_eq_nil (List.mem_singleton_self _) hopen, List.map_nil,
      List.nil_append, cuts_cons]
    simp [callAt?, lastWord_word fun c hc => Phrase.isWordChar_of_mem_name hf hc, hname]
  have harguments : CallTokens.common.arguments ([','].intercalate args) = args := by
    have hsplit : splitTop ['('] [')'] [','] 0 0 true ([','].intercalate args) = args :=
      splitTop_intercalate hne hbalanced
    refine arguments_eq hsplit ?_
    rintro rfl
    exact absurd rfl (hnil [] (List.mem_singleton_self _))
  refine .inr ⟨[], f.name.toList, _, [','].intercalate args, v, operands, ctx₁, v', ?_,
    matchClose?_close (Balanced.intercalate hbalanced) v, ?_, hrest, rfl⟩
  · rw [List.append_assoc, List.cons_append, List.append_assoc, List.singleton_append]
    exact hfind
  · have hall (args' : List Text) (heq : args' = args) (bound : Nat) (h) :
        extractArguments .common whole bound args' h ctx = .ok (operands, ctx₁) := by
      subst heq
      exact hoperands whole bound h
    exact ⟨_, fun arg harg => Nat.lt_succ_of_le (CallTokens.common.length_le_of_mem_arguments harg),
      hall _ harguments _ _⟩

/-! ### Printed texts -/

/-- The calls of a printed text have been taken out: what is left is a printed tree that stands for
the expression. -/
structure Extracted (src : Text) (ctx : Context) (g : Glossary) (e : Phrase) (t : Tree)
    (ctx' : Context) (g' : Glossary) : Prop where
  pulls : Pulls e.text t.print ctx ctx'
  draft : Draft src g' ctx'
  extend : Extends src ctx g ctx' g'
  isOver : t.IsOver (IsOperand src ctx')
  phrase : t.phrase g'.phrase = e

theorem print_ne_nil {src : Text} {ctx : Context} {t : Tree} (h : t.IsOver (IsOperand src ctx)) :
    t.print ≠ [] := by
  cases h with
  | atom hx => exact Draft.operand_ne_nil hx
  | prefixed _ => exact List.cons_ne_nil _ _
  | infixed _ _ _ => exact List.cons_ne_nil _ _

/-- An argument is made an operand: a word stands for itself, all else becomes a symbol. -/
theorem Draft.operand {src : Text} {g : Glossary} {ctx : Context} (h : Draft src g ctx) {t : Tree}
    (ht : t.IsOver (IsOperand src ctx)) :
    ∃ x ctx' g', (if CallTokens.common.isPlain t.print then (t.print, ctx)
        else ctx.addSymbol t.print false) = (x, ctx') ∧ Draft src g' ctx' ∧
      Extends src ctx g ctx' g' ∧ IsOperand src ctx' x ∧ g'.phrase x = t.phrase g.phrase := by
  have hnew (hopen : '(' ∈ t.print) :
      ∃ x ctx' g', (if CallTokens.common.isPlain t.print then (t.print, ctx)
          else ctx.addSymbol t.print false) = (x, ctx') ∧ Draft src g' ctx' ∧
        Extends src ctx g ctx' g' ∧ IsOperand src ctx' x ∧ g'.phrase x = t.phrase g.phrase := by
    have hplain : CallTokens.common.isPlain t.print = false := by
      have hcontains : Text.contains ['('] t.print = true := by
        obtain ⟨before, rest, heq⟩ := List.append_of_mem hopen
        exact Text.contains_iff.mpr ⟨before, rest, by simpa using heq⟩
      simp [CallTokens.isPlain, CallTokens.common, hcontains]
    obtain ⟨key, ctx', g', hadd, hdraft, hext, hmain, hphrase, -, hsymbols⟩ :=
      h.addSymbol (.tree ht (Nat.lt_succ_self _))
    refine ⟨key, ctx', g', by rw [hplain]; exact hadd, hdraft, hext, .inr ⟨hmain, ?_⟩, hphrase⟩
    rw [isSome_symbol?_iff, hsymbols]
    exact List.mem_cons_self ..
  cases ht with
  | prefixed _ => exact hnew (List.mem_cons_self ..)
  | infixed _ _ _ => exact hnew (List.mem_cons_self ..)
  | @atom x hx =>
    have hplain : CallTokens.common.isPlain x = true := by
      have hword {c : Char} (hc : isWordChar c = false) : c ∉ x := fun hmem => by
        rw [h.isWordChar_of_mem hx hmem] at hc
        cases hc
      have htokens : (Markers.common.tokens.all fun entry =>
          entry.1.any fun c => !isWordChar c) = true := by
        decide
      have hoperator : Markers.common.containsOperator x = false := by
        rw [Markers.containsOperator, List.any_eq_false]
        intro entry hentry
        obtain ⟨c, hc, hnot⟩ := List.any_eq_true.mp (List.all_eq_true.mp htokens entry hentry)
        simp [Text.contains_eq_false hc (hword (by simpa using hnot))]
      have hopen : Text.contains ['('] x = false :=
        Text.contains_eq_false (List.mem_singleton_self '(') (hword (by decide))
      simp [CallTokens.isPlain, CallTokens.common, hoperator, hopen]
    exact ⟨x, ctx, g, by rw [Tree.print, hplain]; rfl, h, .refl src ctx g, hx, rfl⟩

/-- The arguments of a call are made operands, one after the other. -/
theorem Draft.operands {src : Text} {args : List Phrase}
    (hargs : ∀ e ∈ args, ∀ {ctx : Context} {g : Glossary}, Draft src g ctx →
      ∃ t ctx' g', Extracted src ctx g e t ctx' g')
    {ctx : Context} {g : Glossary} (h : Draft src g ctx) :
    ∃ operands ctx' g', Operands .common (args.map Phrase.text) ctx operands ctx' ∧
      Draft src g' ctx' ∧ Extends src ctx g ctx' g' ∧ (∀ x ∈ operands, IsOperand src ctx' x) ∧
      operands.map g'.phrase = args := by
  induction args generalizing ctx g with
  | nil =>
    refine ⟨[], ctx, g, fun whole bound h => ?_, h, .refl src ctx g, by simp, rfl⟩
    simp only [List.map_nil]
    rw [extractArguments]
  | cons e args ih =>
    obtain ⟨t, ctx₁, g₁, he⟩ := hargs e (List.mem_cons_self ..) h
    obtain ⟨x, ctx₂, g₂, hx, hdraft, hext, hoperand, hphrase⟩ := he.draft.operand he.isOver
    obtain ⟨operands, ctx₃, g₃, hoperands, hdraft', hext', hall, hphrases⟩ :=
      ih (fun e he => hargs e (List.mem_cons_of_mem _ he)) hdraft
    refine ⟨x :: operands, ctx₃, g₃, fun whole bound h => ?_, hdraft',
      (he.extend.trans hext).trans hext',
      List.forall_mem_cons.mpr ⟨hext'.isOperand hoperand, hall⟩, ?_⟩
    · simp only [List.map_cons]
      rw [extractArguments, he.pulls.extractCallsFrom]
      dsimp only
      rw [if_neg (print_ne_nil he.isOver), hx]
      dsimp only
      rw [hoperands]
    · rw [List.map_cons, hphrases, (hext'.agree_operand x hoperand).1, hphrase, he.phrase]

end Context

namespace Phrase.IsPlain

open Context

/-- The calls of a printed text are taken out. -/
theorem extracted {e : Phrase} (h : e.IsPlain) {src : Text}
    (hwords : ∀ x ∈ words e.text, x ∈ words src) {ctx : Context} {g : Glossary}
    (hctx : Draft src g ctx) : ∃ t ctx' g', Extracted src ctx g e t ctx' g' := by
  have hleaf {x : Text} (hatom : Family.arithmetic.isAtom x = true) (ctx : Context) :
      Pulls x x ctx ctx :=
    pulls_word (fun hmem => by cases Family.isWordChar_of_mem_atom hatom hmem) ctx
  have hmark (op : Char) (hop : op ≠ '(') (ctx : Context) : Pulls [op] [op] ctx ctx :=
    pulls_word (by simpa using hop.symm) ctx
  have hclose (u : Text) (rest : Text) : Parted u (')' :: rest) :=
    .inr (by simp; decide)
  have hopen (v : Text) : Parted ['('] v := .inl (by simp; decide)
  induction h generalizing ctx g with
  | @literal x hx =>
    have hatom := isAtom_literal hx
    rw [text, words_atom hatom, List.forall_mem_singleton] at hwords
    have hx' : IsLeaf src x := ⟨hwords, .inl hx⟩
    refine ⟨.atom x, ctx, g, ?_, hctx, .refl src ctx g, .atom (.inl hx'), hctx.literal x hx' hx⟩
    rw [text]
    exact hleaf hatom ctx
  | @parameter x hname hfunction =>
    have hatom := isAtom_parameter hname
    have hparameter : isParameter x = true := by simp [isParameter, hname, hfunction]
    rw [text, words_atom hatom, List.forall_mem_singleton] at hwords
    have hx' : IsLeaf src x := ⟨hwords, .inr hparameter⟩
    refine ⟨.atom x, ctx, g, ?_, hctx, .refl src ctx g, .atom (.inl hx'),
      hctx.parameter x hx' hparameter⟩
    rw [text]
    exact hleaf hatom ctx
  | @negate e he ih =>
    rw [words_negate] at hwords
    obtain ⟨t, ctx₁, g₁, h₁⟩ := ih hwords hctx
    refine ⟨.prefixed t, ctx₁, g₁, ?_, h₁.draft, h₁.extend, .prefixed h₁.isOver,
      by rw [Tree.phrase, h₁.phrase]⟩
    have hbody := h₁.pulls.append (hmark ')' (by decide) ctx₁) (by simp) (hclose _ _)
    have hminus := (hmark '-' (by decide) ctx).append hbody (by simp) (.inl (by simp; decide))
    have := (pulls_open ctx).append hminus (by simp) (hopen _)
    simpa [text, Tree.print] using this
  | @binary op l r hop hl hr ihl ihr =>
    rw [words_binary hop] at hwords
    obtain ⟨t, ctx₁, g₁, h₁⟩ := ihl (fun x hx => hwords x (List.mem_append_left _ hx)) hctx
    obtain ⟨u, ctx₂, g₂, h₂⟩ := ihr (fun x hx => hwords x (List.mem_append_right _ hx)) h₁.draft
    have hphrase : t.phrase g₂.phrase = l :=
      (h₁.isOver.phrase_congr fun x hx => (h₂.extend.agree_operand x hx).1).trans h₁.phrase
    refine ⟨.infixed op t u, ctx₂, g₂, ?_, h₂.draft, h₁.extend.trans h₂.extend,
      .infixed hop (h₁.isOver.mono fun x hx => h₂.extend.isOperand hx) h₂.isOver,
      by rw [Tree.phrase, hphrase, h₂.phrase]⟩
    have hword := isWordChar_of_mem_marks (mark_mem_marks hop)
    have hbody := h₂.pulls.append (hmark ')' (by decide) ctx₂) (by simp) (hclose _ _)
    have hright := (hmark op.mark (mark_ne hop).1 ctx₁).append hbody (by simp)
      (.inl (by simpa using hword))
    have hleft := h₁.pulls.append hright (by simp) (.inr (by simpa using ⟨hword, (mark_ne hop).1⟩))
    have := (pulls_open ctx).append hleft (by simp) (hopen _)
    simpa [text, Tree.print] using this
  | @call f args hf hcount hargs ih =>
    rw [words_call hf] at hwords
    have hwords' (e : Phrase) (he : e ∈ args) : ∀ x ∈ words e.text, x ∈ words src := fun x hx =>
      hwords x (List.mem_cons_of_mem _ (List.mem_flatMap.mpr ⟨e, he, hx⟩))
    obtain ⟨operands, ctx₁, g₁, hoperands, hdraft, hext, hall, hphrases⟩ :=
      Draft.operands (fun e he => ih e he (hwords' e he)) hctx
    have hlen : operands.length = f.arity := by rw [← hcount, ← hphrases, List.length_map]
    -- the rank of a call is above the sum of those of its operands
    have hrank (x : Text) (hx : x ∈ operands) : g₁.rank x < (operands.map g₁.rank).sum + 1 :=
      Nat.lt_succ_of_le (List.le_sum_of_mem (List.mem_map_of_mem hx))
    obtain ⟨key, ctx₂, g₂, hadd, hdraft', hext', hmain, hphrase, -, hsymbols⟩ :=
      hdraft.addSymbol (.call hf hlen hall hrank)
    refine ⟨.atom key, ctx₂, g₂, ?_, hdraft', hext.trans hext', .atom (.inr ⟨hmain, ?_⟩),
      by rw [Tree.phrase, hphrase, hphrases]⟩
    · have hne : args.map Phrase.text ≠ [] := by
        have := arity_pos hf
        intro hnil
        rw [List.map_eq_nil_iff] at hnil
        subst hnil
        simp at hcount
        omega
      have hpulls := pulls_call hf hne
        (List.forall_mem_map.mpr fun e he => (hargs e he).text_ne_nil)
        (List.forall_mem_map.mpr fun e he => (hargs e he).balanced) hoperands
      rw [hadd] at hpulls
      rw [text]
      exact hpulls
    · rw [isSome_symbol?_iff, hsymbols]
      exact List.mem_cons_self ..

end Phrase.IsPlain

end Formula
