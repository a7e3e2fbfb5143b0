import Formula.Proofs.Printing.Calls
import Formula.Proofs.Source.Literals
import Formula.Proofs.Source.Parameters

/-!
# Unfolding the names of parts of a text

A part of a text that gives way to a name can be found again under the name. So the words of a text
are unfolded: a name is opened to the words of what it stands for, and any word may be dropped. What
the words of the tables unfold to at the end, the words of the text unfolded to from the start, for
taking calls and groups out of a text puts names for parts of it and changes no word outside them.
This needs that the names stand alone, which they do where operands stand apart.

## Main definitions

* `Source.Unfolds`: what words are unfolded to.
* `Source.Covers`: words that unfold to all that the content of a name unfolds to.
* `Source.Agrees`: a symbol covers its final content.

## Main results

* `Source.Unfolds.sublist`: words that are no names of parts are only dropped.
* `Context.Takes.unfolds`: taking calls out.
* `Context.Flattens.unfolds`: taking groups out.
-/

namespace Formula

open Text

namespace Source

/-! ### Unfolding words -/

/-- What words are unfolded to: each is dropped, or kept if it is one of those to keep, or opened to
what the words of its content are unfolded to. -/
inductive Unfolds (content : Text → Option Text) (keeps : Text → Prop) :
    List Text → List Text → Prop
  | nil : Unfolds content keeps [] []
  | drop {ws us : List Text} (w : Text) (h : Unfolds content keeps ws us) :
      Unfolds content keeps (w :: ws) us
  | keep {w : Text} {ws us : List Text} (hw : keeps w) (h : Unfolds content keeps ws us) :
      Unfolds content keeps (w :: ws) (w :: us)
  | opened {w text : Text} {ws us vs : List Text} (hw : content w = some text)
      (hcontent : Unfolds content keeps (words text) vs) (h : Unfolds content keeps ws us) :
      Unfolds content keeps (w :: ws) (vs ++ us)

/-- Words that unfold to all that the content of a name unfolds to. -/
def Covers (content : Text → Option Text) (keeps : Text → Prop) (name : Text) (ws : List Text) :
    Prop :=
  ∀ text us, content name = some text → Unfolds content keeps (words text) us →
    Unfolds content keeps ws us

namespace Unfolds

variable {content : Text → Option Text} {keeps : Text → Prop} {us vs ws : List Text}

theorem dropAll (ws : List Text) : Unfolds content keeps ws [] := by
  induction ws with
  | nil => exact .nil
  | cons w ws ih => exact .drop w ih

theorem append {us' ws' : List Text} (h : Unfolds content keeps ws us)
    (h' : Unfolds content keeps ws' us') : Unfolds content keeps (ws ++ ws') (us ++ us') := by
  induction h with
  | nil => exact h'
  | drop w _ ih => exact .drop w ih
  | keep hw _ ih => exact .keep hw ih
  | opened hw hcontent _ _ ih =>
    rw [List.append_assoc]
    exact .opened hw hcontent ih

theorem exists_append {ws' : List Text} (h : Unfolds content keeps (ws ++ ws') us) :
    ∃ vs vs', us = vs ++ vs' ∧ Unfolds content keeps ws vs ∧ Unfolds content keeps ws' vs' := by
  induction ws generalizing us with
  | nil => exact ⟨[], us, rfl, .nil, h⟩
  | cons w ws ih =>
    cases h with
    | drop _ h =>
      obtain ⟨vs, vs', rfl, hws, hws'⟩ := ih h
      exact ⟨vs, vs', rfl, .drop w hws, hws'⟩
    | keep hw h =>
      obtain ⟨vs, vs', rfl, hws, hws'⟩ := ih h
      exact ⟨w :: vs, vs', rfl, .keep hw hws, hws'⟩
    | opened hw hcontent h =>
      obtain ⟨vs, vs', rfl, hws, hws'⟩ := ih h
      exact ⟨_ ++ vs, vs', (List.append_assoc ..).symm, .opened hw hcontent hws, hws'⟩

/-- Words that have no content are only dropped or kept. -/
theorem sublist (h : Unfolds content keeps ws us) (hws : ∀ w ∈ ws, content w = none) :
    us.Sublist ws := by
  induction h with
  | nil => exact .slnil
  | drop w _ ih => exact .cons w (ih fun v hv => hws v (List.mem_cons_of_mem _ hv))
  | keep _ _ ih => exact .cons_cons _ (ih fun v hv => hws v (List.mem_cons_of_mem _ hv))
  | opened hw =>
    rw [hws _ (List.mem_cons_self ..)] at hw
    cases hw

/-- What is put in for a name covers what the name unfolds to. -/
theorem cover {name : Text} {before rest : List Text}
    (h : Unfolds content keeps (before ++ name :: rest) us) (hname : ¬keeps name)
    (hcovers : Covers content keeps name ws) : Unfolds content keeps (before ++ (ws ++ rest)) us := by
  obtain ⟨vs, vs', rfl, hbefore, hname'⟩ := h.exists_append
  refine hbefore.append ?_
  cases hname' with
  | drop _ h => exact (dropAll ws).append h
  | keep hw _ => exact absurd hw hname
  | opened hw hcontent hrest => exact (hcovers _ _ hw hcontent).append hrest

end Unfolds

/-- The symbol with a name, if there is one, covers what is the content of the name in the end. -/
def Agrees (content : Text → Option Text) (keeps : Text → Prop) (ctx : Context) (key : Text) : Prop :=
  ∀ s, ctx.symbol? key = some s → Covers content keeps key (words s.text)

end Source

/-! ### Symbols -/

namespace Context

section Symbols

variable {ctx : Context} {key : Text} {s : Symbol}

theorem symbol?_addSymbol_eq (ctx : Context) (text : Text) (isCall : Bool) (key : Text) :
    (ctx.addSymbol text isCall).2.symbol? key =
      if key = (ctx.addSymbol text isCall).1 then some ⟨text, isCall⟩ else ctx.symbol? key := by
  change List.lookup key (((ctx.addSymbol text isCall).1, (⟨text, isCall⟩ : Symbol)) :: ctx.symbols) = _
  rw [List.lookup_cons]
  split
  · next h => rw [if_pos (eq_of_beq h)]
  · next h => rw [if_neg (by simpa using h), symbol?]

theorem symbol?_addSymbol_self (ctx : Context) (text : Text) (isCall : Bool) :
    (ctx.addSymbol text isCall).2.symbol? (ctx.addSymbol text isCall).1 = some ⟨text, isCall⟩ := by
  rw [symbol?_addSymbol_eq, if_pos rfl]

/-- The name of a new symbol is that of no other one. -/
theorem symbol?_addSymbol_fst (ctx : Context) (text : Text) (isCall : Bool) :
    ctx.symbol? (ctx.addSymbol text isCall).1 = none := by
  have hfree := ctx.freshName_free
  rw [isTaken, isKnown, Bool.or_eq_false_iff, Bool.or_eq_false_iff, Bool.or_eq_false_iff] at hfree
  exact Option.isSome_eq_false_iff.mp hfree.2.1.2 |> Option.isNone_iff_eq_none.mp

/-- A new symbol leaves the others as they are. -/
theorem symbol?_addSymbol (h : ctx.symbol? key = some s) (text : Text) (isCall : Bool) :
    (ctx.addSymbol text isCall).2.symbol? key = some s := by
  rw [symbol?_addSymbol_eq, if_neg, h]
  rintro rfl
  rw [symbol?_addSymbol_fst] at h
  cases h

/-- What a new symbol is named, is a word. -/
theorem addSymbol_word (ctx : Context) (text : Text) (isCall : Bool) :
    (ctx.addSymbol text isCall).1 ≠ [] ∧
      ∀ c ∈ (ctx.addSymbol text isCall).1, isIdentifierChar c = true :=
  Source.generatedName_word _

theorem isSome_symbol?_addSymbol (h : (ctx.symbol? key).isSome) (text : Text) (isCall : Bool) :
    ((ctx.addSymbol text isCall).2.symbol? key).isSome := by
  obtain ⟨s, hs⟩ := Option.isSome_iff_exists.mp h
  rw [symbol?_addSymbol hs]
  rfl

theorem eq_or_symbol?_of_addSymbol {text : Text} {isCall : Bool}
    (h : (ctx.addSymbol text isCall).2.symbol? key = some s) :
    key = (ctx.addSymbol text isCall).1 ∧ s = ⟨text, isCall⟩ ∨ ctx.symbol? key = some s := by
  rw [symbol?_addSymbol_eq] at h
  split at h
  · next hkey => exact .inl ⟨hkey, (Option.some.inj h).symm⟩
  · exact .inr h

theorem symbol?_map (ctx : Context) (f : Text → Symbol → Symbol) (key : Text) :
    (ctx.symbols.map fun p => (p.1, f p.1 p.2)).lookup key = (ctx.symbol? key).map (f key) := by
  rw [symbol?]
  induction ctx.symbols with
  | nil => rfl
  | cons p symbols ih =>
    obtain ⟨k, s⟩ := p
    rw [List.map_cons, List.lookup_cons, List.lookup_cons]
    by_cases hk : key = k
    · subst hk
      simp
    · simpa [beq_false_of_ne hk] using ih

theorem symbol?_setText (ctx : Context) (key' text key : Text) :
    (ctx.setText key' text).symbol? key =
      (ctx.symbol? key).map fun s => if key = key' then { s with text } else s :=
  symbol?_map ctx (fun k s => if k = key' then { s with text } else s) key

theorem symbol?_markSymbols (markers : Markers) (ctx : Context) (key : Text) :
    (ctx.markSymbols markers).symbol? key =
      (ctx.symbol? key).map fun s => if s.isCall then s else { s with text := markers.mark s.text } :=
  symbol?_map ctx (fun _ s => if s.isCall then s else { s with text := markers.mark s.text }) key

/-- A property of all symbols but one, whose text is changed next. -/
def ForallBut (P : Text → Symbol → Prop) (current : Text) (ctx : Context) : Prop :=
  ∀ key ≠ current, ∀ s, ctx.symbol? key = some s → P key s

/-- What holds of the symbols with a new one holds of those before and of the new one. -/
theorem ForallBut.of_addSymbol {P : Text → Symbol → Prop} {current text : Text} {isCall : Bool}
    (hcurrent : (ctx.symbol? current).isSome) (h : ForallBut P current (ctx.addSymbol text isCall).2) :
    ForallBut P current ctx ∧ P (ctx.addSymbol text isCall).1 ⟨text, isCall⟩ := by
  refine ⟨fun key hkey s hs => h key hkey s (symbol?_addSymbol hs text isCall),
    h _ ?_ _ (symbol?_addSymbol_self ctx text isCall)⟩
  rintro rfl
  rw [symbol?_addSymbol_fst] at hcurrent
  cases hcurrent

end Symbols

end Context

namespace Source

section Agreement

variable {content : Text → Option Text} {keeps : Text → Prop} {ctx : Context}

/-- If the tables with a new symbol agree with what is found later, then so do those without it, and
the symbol covers its final content. This leaves out one of the symbols, whose text is changed
next. -/
theorem agrees_addSymbol {current text : Text} {isCall : Bool}
    (hcurrent : (ctx.symbol? current).isSome)
    (h : ∀ key ≠ current, Agrees content keeps (ctx.addSymbol text isCall).2 key) :
    (∀ key ≠ current, Agrees content keeps ctx key) ∧
      Covers content keeps (ctx.addSymbol text isCall).1 (words text) :=
  Context.ForallBut.of_addSymbol (P := fun key s => Covers content keeps key (words s.text))
    hcurrent h

/-- A new name is none of the words that are kept, as these occur in the source. -/
theorem not_keeps_addSymbol {source : Text} (hkeeps : ∀ w, keeps w → Text.contains w source = true)
    (hctx : ctx.source = source) (text : Text) (isCall : Bool) :
    ¬keeps (ctx.addSymbol text isCall).1 := by
  intro hname
  have hfresh : Text.contains (ctx.addSymbol text isCall).1 ctx.source = false :=
    (Context.contains_freshName ctx).1
  rw [hctx, hkeeps _ hname] at hfresh
  cases hfresh

end Agreement

end Source

/-! ### Taking calls out -/

/-- The leftmost call: no call is found in what precedes it. -/
theorem exists_of_findCall? {rest head name tail : Text}
    (h : findCall? ['('] rest = some (head, name, tail)) :
    rest = head ++ name ++ '(' :: tail ∧ isFunctionName name = true ∧
      lastWord (head ++ name) = (head, name) ∧ findCall? ['('] head = none := by
  rw [Context.findCall?_eq] at h
  obtain ⟨⟨before, tail'⟩, hmem, hcall⟩ := List.exists_of_findSome?_eq_some h
  have hcut := eq_append_of_mem_cuts hmem
  have hbefore := lastWord_append before
  rw [Context.callAt?] at hcall
  split at hcall
  · next hname =>
    obtain ⟨rfl, hrest⟩ := Prod.mk.inj (Option.some.inj hcall)
    obtain ⟨rfl, rfl⟩ := Prod.mk.inj hrest
    refine ⟨by rw [hbefore, hcut]; simp, hname, by rw [hbefore], ?_⟩
    generalize (lastWord before).1 = head, (lastWord before).2 = name at h hbefore
    subst hbefore hcut
    rw [Context.findCall?_eq, List.findSome?_eq_none_iff]
    intro p hp
    -- a call in what precedes would be found first
    by_contra hfound
    have hfirst : (((cuts ['('] head).map fun p =>
        (p.1, p.2 ++ (name ++ ['('] ++ tail'))).findSome? Context.callAt?).isSome := by
      rw [List.findSome?_isSome_iff]
      refine ⟨_, List.mem_map_of_mem hp, ?_⟩
      rw [Context.callAt?] at hfound ⊢
      split at hfound
      · next hname =>
        rw [if_pos hname]
        rfl
      · exact absurd rfl hfound
    obtain ⟨q, hq⟩ := Option.isSome_iff_exists.mp hfirst
    rw [List.append_assoc, List.append_assoc, ← List.append_assoc name, cuts_append,
      List.findSome?_append, hq, Option.some_or] at h
    obtain rfl := Option.some.inj h
    obtain ⟨r, hr, hcall⟩ := List.exists_of_findSome?_eq_some hq
    obtain ⟨cut, hcut, rfl⟩ := List.mem_map.mp hr
    have hlen := congrArg List.length (eq_append_of_mem_cuts hcut)
    rw [Context.callAt?] at hcall
    split at hcall
    · have hword := congrArg List.length (lastWord_append cut.1)
      rw [(Prod.mk.inj (Option.some.inj hcall)).1] at hword
      simp only [List.length_append, List.length_singleton] at hlen hword
      omega
    · cases hcall
  · cases hcall

/-- Where no call is found, none opens. -/
theorem Text.Laid.of_findCall? {text : Text} (h : Laid true text)
    (hfind : findCall? ['('] text = none) : Laid false text := by
  rw [Laid, List.isChain_iff_forall_rel_of_append_cons_cons] at h ⊢
  intro a b u v huv
  rcases Piece.ends_or_starts (h huv) with hends | hstarts | ⟨-, hopens⟩
  · simp [Piece.mayPrecede, hends]
  · simp [Piece.mayPrecede, hstarts]
  -- the call that opens there would be found
  cases a with
  | mark c => cases hopens
  | atom x =>
  cases b with
  | atom y => cases hopens
  | mark c =>
  obtain ⟨hc, hname⟩ := Bool.and_eq_true_iff.mp hopens
  obtain rfl := eq_of_beq hc
  obtain ⟨htext, hbefore, -⟩ := pieces_split (huv.trans (List.append_cons u _ _))
  rw [Piece.textAll_cons, Piece.text, List.singleton_append] at htext
  rw [Context.findCall?_eq, List.findSome?_eq_none_iff] at hfind
  have hcut := hfind (Piece.textAll (u ++ [.atom x]), Piece.textAll v) (by
    rw [htext, cuts_append]
    refine List.mem_append_right _ (List.mem_map.mpr ⟨([], Piece.textAll v), ?_, by simp⟩)
    rw [cuts_cons, if_pos rfl]
    exact List.mem_append_left _ (List.mem_singleton_self _))
  rw [Context.callAt?, lastWord_of_pieces hbefore (isWordChar_of_isFunctionName hname).2,
    if_pos hname] at hcut
  cases hcut

namespace Context

section Takes

variable {tokens : CallTokens} (hopening : tokens.opening = ['(']) (hclosing : tokens.closing = [')'])
include hopening hclosing

/-- Taking calls out of a text leaves its depths as they are. -/
theorem Takes.depth_eq {job : Job} {results : List Text} {ctx ctx' : Context}
    (h : Takes tokens job ctx results ctx') {rest : Text} (hjob : job = .search rest)
    (inside : Bool) :
    ∃ text, results = [text] ∧ ∀ depth, depthAfter? inside depth text = depthAfter? inside depth rest := by
  induction h generalizing rest with
  | done =>
    cases hjob
    exact ⟨_, rfl, fun _ => rfl⟩
  | nil | plain | named => cases hjob
  | @call rest' head name tail inner after text operands ctx ctx₁ ctx' hfind hclose _ _ _ ihrest =>
    cases hjob
    obtain ⟨_, htext, hdepth⟩ := ihrest rfl
    obtain rfl := List.singleton_inj.mp htext
    rw [hopening] at hfind
    rw [hopening, hclosing] at hclose
    obtain ⟨rfl, hname, -, -⟩ := exists_of_findCall? hfind
    obtain ⟨rfl, hinner⟩ := depthAfter?_of_matchClose? hclose
    have hword {x : Text} (hx : ∀ c ∈ x, isWordChar c = true) (depth : Nat) :
        depthAfter? inside depth x = some depth :=
      depthAfter?_of_forall (fun c hc => by
        have := hx c hc
        refine ⟨?_, ?_, ?_⟩ <;> rintro rfl <;> exact absurd this (by decide)) depth
    refine ⟨_, rfl, fun depth => ?_⟩
    have hnew (depth : Nat) :
        Text.depthAfter? inside depth (ctx₁.addSymbol (tokens.call name operands) true).1 = some depth :=
      hword (fun c => Sorted.isWordChar_of_mem_generatedName) depth
    simp only [depthAfter?_append, List.append_assoc, depthAfter?_group hinner,
      hword (isWordChar_of_isFunctionName hname).2, hnew, hdepth, Option.bind_some]

/-- What is left of a text that is laid out when the calls are taken out is laid out, and starts as
the text did. -/
theorem Takes.laid {job : Job} {results : List Text} {ctx ctx' : Context}
    (h : Takes tokens job ctx results ctx') {rest : Text} (hjob : job = .search rest)
    (hlaid : Laid true rest) :
    ∃ text, results = [text] ∧ Laid false text ∧ (rest ≠ [] → text ≠ []) ∧
      ((∀ b ∈ (pieces rest).head?, b.starts = false) →
        ∀ b ∈ (pieces text).head?, b.starts = false) := by
  induction h generalizing rest with
  | done hfind =>
    cases hjob
    rw [hopening] at hfind
    exact ⟨_, rfl, hlaid.of_findCall? hfind, id, id⟩
  | nil | plain | named => cases hjob
  | @call rest' head name tail inner after text operands ctx ctx₁ ctx' hfind hclose _ _ _ ihrest =>
    cases hjob
    rw [hopening] at hfind
    rw [hopening, hclosing] at hclose
    obtain ⟨rfl, hname, hword, hhead⟩ := exists_of_findCall? hfind
    obtain ⟨rfl, -⟩ := depthAfter?_of_matchClose? hclose
    obtain ⟨hbefore, -, hafter, hgap⟩ := hlaid.call hname hword
    obtain ⟨_, htext, hlaid', -, hfirst⟩ := ihrest rfl hafter
    obtain rfl := List.singleton_inj.mp htext
    obtain ⟨hne, hchars⟩ := ctx₁.addSymbol_word (tokens.call name operands) true
    have hgap' : Gap head text := ⟨hgap.left, hfirst hgap.right⟩
    refine ⟨_, rfl, hgap'.laid (hbefore.of_findCall? hhead) hlaid' hne hchars, fun _ => by simp [hne],
      fun hstart => ?_⟩
    rw [List.append_assoc, pieces_append (.inl hgap.isolatedBy.left)] at hstart
    rw [pieces_isolated hne hchars hgap'.isolatedBy]
    cases hpieces : pieces head with
    | cons a u =>
      rw [hpieces] at hstart
      exact hstart
    | nil =>
      obtain ⟨hne, hchars⟩ := isWordChar_of_isFunctionName hname
      obtain ⟨c, name, rfl⟩ := List.exists_cons_of_ne_nil hne
      have hchar : isIdentifierChar c = true :=
        isIdentifierChar_of_isWordChar (hchars c (List.mem_cons_self ..))
      obtain ⟨x, hx⟩ : ∃ x, (pieces (c :: name ++ '(' :: (inner ++ ')' :: after))).head? =
          some (.atom x) := exists_atom_of_head? rfl hchar
      rw [hpieces, List.nil_append] at hstart
      cases hstart _ hx

end Takes

end Context

/-- The arguments of a call are laid out as what stands between its parentheses is. -/
theorem Text.Laid.of_intercalate {calls : Bool} {parts : List Text}
    (h : Laid calls ([','].intercalate parts)) : ∀ part ∈ parts, Laid calls part := by
  induction parts with
  | nil => simp
  | cons part parts ih =>
    cases parts with
    | nil => simpa [List.intercalate] using h
    | cons next parts =>
      rw [List.intercalate_cons_cons, List.append_assoc, List.singleton_append,
        laid_append_cons (by decide)] at h
      exact List.forall_mem_cons.mpr ⟨h.1, ih h.2.1⟩

/-- A symbol as the tables hold it: a call on plain operands, or a text that is laid out. -/
inductive Symbol.IsSound : Symbol → Prop
  | call {name : Text} {operands : List Text} (hname : '(' ∉ name)
      (hoperands : ∀ x ∈ operands, x ≠ [] ∧ '(' ∉ x ∧ ',' ∉ x) :
      IsSound ⟨name ++ ['('] ++ [','].intercalate operands ++ [')'], true⟩
  | text {text : Text} (hne : text ≠ []) (hlaid : Laid false text) : IsSound ⟨text, false⟩

namespace Context

/-- What a job needs: its texts are laid out, and arguments close what they open. -/
def Job.IsSound : Job → Prop
  | .search rest => Laid true rest
  | .arguments args => ∀ arg ∈ args, Laid true arg ∧ depthAfter? false 0 arg = some 0

/-- The words of the texts of a job. -/
def Job.words : Job → List Text
  | .search rest => Text.words rest
  | .arguments args => args.flatMap Text.words

section Takes

variable {tokens : CallTokens} (hopening : tokens.opening = ['(']) (hclosing : tokens.closing = [')'])
  (hseparator : tokens.separator = [','])
include hopening hclosing hseparator

theorem words_call (name : Text) (operands : List Text) :
    Text.words (tokens.call name operands) = Text.words name ++ operands.flatMap Text.words := by
  rw [CallTokens.call, hopening, hclosing, hseparator, List.append_assoc, List.append_assoc,
    List.singleton_append, words_append_cons (by decide), words_append_cons (by decide),
    words_intercalate, words_nil, List.append_nil]

/-- The arguments of a call that is laid out. -/
theorem isSound_arguments {inner : Text} (hlaid : Laid true inner)
    (hdepth : Text.depthAfter? true 0 inner = some 0) :
    (Job.arguments (tokens.arguments inner)).IsSound ∧
      (tokens.arguments inner).flatMap words = words inner := by
  obtain ⟨part, parts, hsplit, hpart, hparts⟩ := exists_of_splitTop hdepth
  have hinner := (intercalate_splitTop 0 inner).1
  rw [hsplit] at hinner
  rw [CallTokens.arguments, hopening, hclosing, hseparator, hsplit]
  split
  · next hnil =>
    rw [hnil] at hinner
    exact ⟨by simp [Job.IsSound], by rw [← hinner]; rfl⟩
  · have hall : ∀ arg ∈ part :: parts, Text.depthAfter? false 0 arg = some 0 :=
      List.forall_mem_cons.mpr ⟨hpart, hparts⟩
    refine ⟨fun arg harg => ⟨Laid.of_intercalate (hinner ▸ hlaid) arg harg, hall arg harg⟩, ?_⟩
    · rw [← words_intercalate, hinner]

/-- The call that is taken out next, where operands stand apart. -/
theorem exists_of_search {rest head name tail inner after : Text} (hlaid : Laid true rest)
    (hfind : findCall? tokens.opening rest = some (head, name, tail))
    (hclose : Text.matchClose? tokens.opening tokens.closing 0 0 tail = some (inner, after)) :
    rest = head ++ name ++ '(' :: (inner ++ ')' :: after) ∧
      (name ≠ [] ∧ ∀ c ∈ name, isWordChar c = true) ∧ Gap head after ∧
      (Job.search after).IsSound ∧ (Job.arguments (tokens.arguments inner)).IsSound ∧
      Text.words rest = Text.words head ++
        ([name] ++ ((Job.arguments (tokens.arguments inner)).words ++ Text.words after)) := by
  rw [hopening] at hfind
  rw [hopening, hclosing] at hclose
  obtain ⟨rfl, hname, hword, -⟩ := exists_of_findCall? hfind
  obtain ⟨rfl, hdepth⟩ := depthAfter?_of_matchClose? hclose
  obtain ⟨-, hinner, hafter, hgap⟩ := hlaid.call hname hword
  obtain ⟨hne, hchars⟩ := isWordChar_of_isFunctionName hname
  obtain ⟨hsound, hwords⟩ := isSound_arguments hopening hclosing hseparator hinner hdepth
  refine ⟨rfl, ⟨hne, hchars⟩, hgap, hafter, hsound, ?_⟩
  have hisolated : IsolatedBy head ('(' :: (inner ++ ')' :: after)) :=
    ⟨hgap.isolatedBy.left, fun c hc => by
      obtain rfl : '(' = c := by simpa using hc
      decide⟩
  rw [words_isolated hne (fun c hc => isIdentifierChar_of_isWordChar (hchars c hc)) hisolated,
    words_cons (by decide), words_append_cons (by decide), Job.words, hwords]
  simp

/-- Taking calls out adds sound symbols, and the operands of calls are plain. -/
theorem Takes.sound {job : Job} {results : List Text} {ctx ctx' : Context}
    (h : Takes tokens job ctx results ctx') (hjob : job.IsSound)
    (hctx : ∀ key s, ctx.symbol? key = some s → key = mainName ∨ s.IsSound) :
    (∀ key s, ctx'.symbol? key = some s → key = mainName ∨ s.IsSound) ∧
      ∀ args, job = .arguments args → ∀ x ∈ results, x ≠ [] ∧ '(' ∉ x ∧ ',' ∉ x := by
  have hadd {ctx : Context} {text : Text} {isCall : Bool}
      (hctx : ∀ key s, ctx.symbol? key = some s → key = mainName ∨ s.IsSound)
      (hnew : Symbol.IsSound ⟨text, isCall⟩) :
      ∀ key s, (ctx.addSymbol text isCall).2.symbol? key = some s → key = mainName ∨ s.IsSound :=
    fun key s hs => (eq_or_symbol?_of_addSymbol hs).elim (fun h => .inr (h.2 ▸ hnew)) (hctx key s)
  have hplainWord {x : Text} (hx : ∀ c ∈ x, isWordChar c = true) : '(' ∉ x ∧ ',' ∉ x :=
    ⟨fun hc => absurd (hx _ hc) (by decide), fun hc => absurd (hx _ hc) (by decide)⟩
  induction h with
  | done => exact ⟨hctx, by simp⟩
  | nil => exact ⟨hctx, by simp⟩
  | call hfind hclose hargs _ ihargs ihrest =>
    obtain ⟨-, hname, -, hafter, harguments, -⟩ :=
      exists_of_search hopening hclosing hseparator hjob hfind hclose
    obtain ⟨hctx₁, hoperands⟩ := ihargs harguments hctx
    refine ⟨(ihrest hafter (hadd hctx₁ ?_)).1, by simp⟩
    rw [CallTokens.call, hopening, hclosing, hseparator]
    exact .call (hplainWord hname.2).1 (hoperands _ rfl)
  | @plain arg text args operands ctx ctx₁ ctx' harg hne hplain _ iharg ihrest =>
    obtain ⟨⟨hlaid, hdepth⟩, hargs⟩ := List.forall_mem_cons.mp hjob
    obtain ⟨hctx₁, -⟩ := iharg hlaid hctx
    obtain ⟨hctx', hoperands⟩ := ihrest hargs hctx₁
    obtain ⟨_, htext, hkept⟩ := harg.depth_eq hopening hclosing rfl false
    obtain rfl := List.singleton_inj.mp htext
    have hopen : '(' ∉ text := by
      rw [CallTokens.isPlain, Bool.and_eq_true, Bool.not_eq_true', Bool.not_eq_true', hopening]
        at hplain
      intro hmem
      obtain ⟨u, v, rfl⟩ := List.append_of_mem hmem
      rw [contains_iff.mpr ⟨u, v, by simp⟩] at hplain
      cases hplain.2
    exact ⟨hctx', fun _ _ => List.forall_mem_cons.mpr
      ⟨⟨hne, hopen, not_mem_of_depthAfter? ((hkept 0).trans hdepth) hopen⟩, hoperands _ rfl⟩⟩
  | @named arg text args operands ctx ctx₁ ctx' harg hne _ _ iharg ihrest =>
    obtain ⟨⟨hlaid, -⟩, hargs⟩ := List.forall_mem_cons.mp hjob
    obtain ⟨hctx₁, -⟩ := iharg hlaid hctx
    obtain ⟨_, htext, hlaid', -⟩ := harg.laid hopening hclosing rfl hlaid
    obtain rfl := List.singleton_inj.mp htext
    obtain ⟨hctx', hoperands⟩ := ihrest hargs (hadd hctx₁ (.text hne hlaid'))
    refine ⟨hctx', fun _ _ => List.forall_mem_cons.mpr ⟨?_, hoperands _ rfl⟩⟩
    obtain ⟨hne, hchars⟩ : (ctx₁.addSymbol text false).1 ≠ [] ∧
        ∀ c ∈ (ctx₁.addSymbol text false).1, isWordChar c = true :=
      ⟨(Source.generatedName_word _).1, fun c hc => Sorted.isWordChar_of_mem_generatedName hc⟩
    exact ⟨hne, hplainWord hchars⟩

/-- What is left when the calls are taken out unfolds to no more than what they are taken out of. -/
theorem Takes.unfolds {content : Text → Option Text} {keeps : Text → Prop} {source : Text}
    (hkeeps : ∀ w, keeps w → Text.contains w source = true) {job : Job} {results : List Text}
    {ctx ctx' : Context} (h : Takes tokens job ctx results ctx') (hjob : job.IsSound)
    (hctx : ctx.source = source) {current : Text} (hcurrent : (ctx.symbol? current).isSome)
    (hagrees : ∀ key ≠ current, Source.Agrees content keeps ctx' key) :
    (∀ key ≠ current, Source.Agrees content keeps ctx key) ∧ ∀ us,
      Source.Unfolds content keeps (results.flatMap Text.words) us →
        Source.Unfolds content keeps job.words us := by
  have hkept {job : Job} {results : List Text} {ctx ctx' : Context}
      (h : Takes tokens job ctx results ctx') (hctx : ctx.source = source)
      (hcurrent : (ctx.symbol? current).isSome) :
      ctx'.source = source ∧ (ctx'.symbol? current).isSome :=
    h.preserves (P := fun ctx => ctx.source = source ∧ (ctx.symbol? current).isSome)
      (fun ctx text isCall hctx => ⟨hctx.1, isSome_symbol?_addSymbol hctx.2 text isCall⟩)
      ⟨hctx, hcurrent⟩
  induction h with
  | done => exact ⟨hagrees, by simp [Job.words]⟩
  | nil => exact ⟨hagrees, fun us h => h⟩
  | @call rest head name tail inner after text operands ctx ctx₁ ctx' hfind hclose hargs hrest ihargs
      ihrest =>
    obtain ⟨-, ⟨hne, hchars⟩, hgap, hafter, harguments, hwords⟩ :=
      exists_of_search hopening hclosing hseparator hjob hfind hclose
    obtain ⟨hctx₁, hcurrent₁⟩ := hkept hargs hctx hcurrent
    obtain ⟨hagrees, htext⟩ :=
      ihrest hafter hctx₁ (isSome_symbol?_addSymbol hcurrent₁ _ _) hagrees
    obtain ⟨hagrees, hcovers⟩ := Source.agrees_addSymbol hcurrent₁ hagrees
    obtain ⟨hagrees, hoperands⟩ := ihargs harguments hctx hcurrent hagrees
    refine ⟨hagrees, fun us h => ?_⟩
    obtain ⟨_, heq, -, -, hfirst⟩ := hrest.laid hopening hclosing rfl hafter
    obtain rfl := List.singleton_inj.mp heq
    obtain ⟨hnewne, hnewchars⟩ := ctx₁.addSymbol_word (tokens.call name operands) true
    have hisolated : IsolatedBy head text := Gap.isolatedBy ⟨hgap.left, hfirst hgap.right⟩
    rw [List.flatMap_singleton, words_isolated hnewne hnewchars hisolated] at h
    have hcall : Text.words (tokens.call name operands) = name :: operands.flatMap Text.words := by
      rw [words_call hopening hclosing hseparator,
        words_of_name hne fun c hc => isIdentifierChar_of_isWordChar (hchars c hc)]
      rfl
    have h := h.cover (Source.not_keeps_addSymbol hkeeps hctx₁ _ _) hcovers
    rw [hcall] at h
    obtain ⟨vs, vs', rfl, hhead, h⟩ := h.exists_append
    rw [List.cons_append, ← List.singleton_append] at h
    obtain ⟨_, _, rfl, hname, h⟩ := h.exists_append
    obtain ⟨_, _, rfl, hargs, hrest⟩ := h.exists_append
    rw [Job.words, hwords]
    exact hhead.append (hname.append ((hoperands _ hargs).append (htext _ (by simpa using hrest))))
  | @plain arg text args operands ctx ctx₁ ctx' harg hne hplain hrest iharg ihrest =>
    obtain ⟨⟨hlaid, -⟩, hargs⟩ := List.forall_mem_cons.mp hjob
    obtain ⟨hctx₁, hcurrent₁⟩ := hkept harg hctx hcurrent
    obtain ⟨hagrees, hoperands⟩ := ihrest hargs hctx₁ hcurrent₁ hagrees
    obtain ⟨hagrees, htext⟩ := iharg hlaid hctx hcurrent hagrees
    refine ⟨hagrees, fun us h => ?_⟩
    obtain ⟨vs, vs', rfl, hfirst, hrest⟩ := h.exists_append
    exact (htext vs (by simpa using hfirst)).append (hoperands vs' hrest)
  | @named arg text args operands ctx ctx₁ ctx' harg hne _ hrest iharg ihrest =>
    obtain ⟨⟨hlaid, -⟩, hargs⟩ := List.forall_mem_cons.mp hjob
    obtain ⟨hctx₁, hcurrent₁⟩ := hkept harg hctx hcurrent
    obtain ⟨hagrees, hoperands⟩ :=
      ihrest hargs hctx₁ (isSome_symbol?_addSymbol hcurrent₁ _ _) hagrees
    obtain ⟨hagrees, hcovers⟩ := Source.agrees_addSymbol hcurrent₁ hagrees
    obtain ⟨hagrees, htext⟩ := iharg hlaid hctx hcurrent hagrees
    refine ⟨hagrees, fun us h => ?_⟩
    have hname : Text.words (ctx₁.addSymbol text false).1 = [(ctx₁.addSymbol text false).1] :=
      words_of_name (ctx₁.addSymbol_word text false).1 (ctx₁.addSymbol_word text false).2
    rw [List.flatMap_cons, hname, List.singleton_append, ← List.nil_append (_ :: _)] at h
    have h := h.cover (Source.not_keeps_addSymbol hkeeps hctx₁ text false) hcovers
    rw [List.nil_append] at h
    obtain ⟨vs, vs', rfl, hfirst, hrest⟩ := h.exists_append
    exact (htext vs (by simpa using hfirst)).append (hoperands vs' hrest)

end Takes

end Context

/-! ### Taking groups out -/

theorem Text.not_mem_of_cutLast? {c : Char} {text : Text} :
    (cutLast? [c] text = none → c ∉ text) ∧
      ∀ before tail, cutLast? [c] text = some (before, tail) → c ∉ tail := by
  induction text with
  | nil => exact ⟨fun _ => List.not_mem_nil, fun _ _ h => by simp [cutLast?, after?] at h⟩
  | cons d text ih =>
    rw [cutLast?]
    cases hlast : cutLast? [c] text with
    | some parts =>
      refine ⟨fun h => by simp at h, fun before tail h => ?_⟩
      obtain ⟨-, rfl⟩ := Prod.mk.inj (Option.some.inj h)
      exact ih.2 _ _ hlast
    | none =>
      have htext := ih.1 hlast
      by_cases hc : c = d
      · subst hc
        refine ⟨fun h => by simp [after?] at h, fun before tail h => ?_⟩
        obtain ⟨-, rfl⟩ : [] = before ∧ text = tail := by simpa [after?] using h
        exact htext
      · exact ⟨fun _ hmem => (List.mem_cons.mp hmem).elim hc htext,
          fun _ _ h => by simp [after?, hc] at h⟩

namespace Context

/-- The group that opens last, in a text that is laid out: it can give way to what is laid out. -/
theorem exists_of_group {text before tail inner rest : Text} (hlaid : Laid false text)
    (hopen : cutLast? ['('] text = some (before, tail)) (hclose : cut? [')'] tail = some (inner, rest)) :
    Laid false inner ∧ '(' ∉ inner ∧ Gap before rest ∧
      Text.words text = Text.words before ++ (Text.words inner ++ Text.words rest) ∧
      ∀ x, Laid false x → Laid false (before ++ x ++ rest) := by
  have htail := not_mem_of_cutLast?.2 _ _ hopen
  obtain rfl := eq_append_of_cutLast? hopen
  obtain rfl := eq_append_of_cut? hclose
  simp only [List.append_assoc, List.singleton_append] at hlaid htail ⊢
  obtain ⟨hbefore, hinner, hrest, hgap⟩ :=
    hlaid.bracketed (by decide) (by decide) rfl rfl fun h => by cases h
  refine ⟨hinner, fun h => htail (List.mem_append_left _ h), hgap, ?_, fun x hx => ?_⟩
  · rw [words_append_cons (by decide), words_append_cons (by decide)]
  · simpa using hgap.laid_append hbefore hx hrest

/-- Taking the groups out of a text that is laid out leaves one that is laid out and has none, and
adds symbols that are no calls and have no groups. -/
theorem Flattens.sound {text text' : Text} {ctx ctx' : Context}
    (h : Flattens ['('] [')'] text ctx text' ctx') (hlaid : Laid false text) (hne : text ≠ []) :
    Laid false text' ∧ text' ≠ [] ∧ '(' ∉ text' ∧ ∀ key s, ctx'.symbol? key = some s →
      ctx.symbol? key = some s ∨ s.IsSound ∧ s.isCall = false ∧ '(' ∉ s.text := by
  induction h with
  | done hopen => exact ⟨hlaid, hne, not_mem_of_cutLast?.1 hopen, fun _ _ hs => .inl hs⟩
  | @known text before tail inner rest text' ctx ctx' hopen hclose hinner _ _ ih =>
    obtain ⟨hlaid', -, -, -, hput⟩ := exists_of_group hlaid hopen hclose
    exact ih (hput _ hlaid') (by simp [hinner])
  | @group text before tail inner rest text' ctx ctx' hopen hclose hinner _ _ ih =>
    obtain ⟨hinnerLaid, hflat, -, -, hput⟩ := exists_of_group hlaid hopen hclose
    obtain ⟨hnewne, hnewchars⟩ := ctx.addSymbol_word inner false
    have hnew : Laid false (ctx.addSymbol inner false).1 := by
      rw [Laid, pieces_of_name hnewne hnewchars]
      exact List.isChain_singleton _
    obtain ⟨hlaid', hne', hflat', hsymbols⟩ := ih (hput _ hnew) (by simp [hnewne])
    refine ⟨hlaid', hne', hflat', fun key s hs => ?_⟩
    rcases hsymbols key s hs with hs | hs
    · rcases eq_or_symbol?_of_addSymbol hs with ⟨-, rfl⟩ | hs
      · exact .inr ⟨.text hinner hinnerLaid, rfl, hflat⟩
      · exact .inl hs
    · exact .inr hs

/-- What is left when the groups are taken out unfolds to no more than the text with its groups. -/
theorem Flattens.unfolds {content : Text → Option Text} {keeps : Text → Prop} {source : Text}
    (hkeeps : ∀ w, keeps w → Text.contains w source = true) {text text' : Text} {ctx ctx' : Context}
    (h : Flattens ['('] [')'] text ctx text' ctx') (hlaid : Laid false text)
    (hctx : ctx.source = source) {current : Text} (hcurrent : (ctx.symbol? current).isSome)
    (hagrees : ∀ key ≠ current, Source.Agrees content keeps ctx' key) :
    (∀ key ≠ current, Source.Agrees content keeps ctx key) ∧
      ∀ us, Source.Unfolds content keeps (Text.words text') us →
        Source.Unfolds content keeps (Text.words text) us := by
  induction h with
  | done => exact ⟨hagrees, fun _ h => h⟩
  | @known text before tail inner rest text' ctx ctx' hopen hclose _ _ _ ih =>
    obtain ⟨hlaid', -, hgap, hwords, hput⟩ := exists_of_group hlaid hopen hclose
    obtain ⟨hagrees, hunfolds⟩ := ih (hput _ hlaid') hctx hcurrent hagrees
    refine ⟨hagrees, fun us h => ?_⟩
    rw [hwords, ← hgap.words_append]
    exact hunfolds us h
  | @group text before tail inner rest text' ctx ctx' hopen hclose _ _ _ ih =>
    obtain ⟨-, -, hgap, hwords, hput⟩ := exists_of_group hlaid hopen hclose
    obtain ⟨hnewne, hnewchars⟩ := ctx.addSymbol_word inner false
    have hnew : Laid false (ctx.addSymbol inner false).1 := by
      rw [Laid, pieces_of_name hnewne hnewchars]
      exact List.isChain_singleton _
    obtain ⟨hagrees, hunfolds⟩ :=
      ih (hput _ hnew) hctx (isSome_symbol?_addSymbol hcurrent inner false) hagrees
    obtain ⟨hagrees, hcovers⟩ := Source.agrees_addSymbol hcurrent hagrees
    refine ⟨hagrees, fun us h => ?_⟩
    have h := hunfolds us h
    rw [words_isolated hnewne hnewchars hgap.isolatedBy] at h
    rw [hwords]
    exact h.cover (Source.not_keeps_addSymbol hkeeps hctx inner false) hcovers

/-- The tables while groups are taken out: all symbols are sound, and those that are no calls have no
groups, except where this is still to be done. -/
structure Leveled (keys : List Text) (ctx : Context) : Prop where
  sound : ∀ key s, ctx.symbol? key = some s → s.IsSound
  flat : ∀ key s, ctx.symbol? key = some s → s.isCall = false → key ∈ keys ∨ '(' ∉ s.text
  calls : ∀ key ∈ keys, ∀ s, ctx.symbol? key = some s → s.isCall = false

namespace Leveled

variable {key text : Text} {keys : List Text} {ctx ctx₁ : Context} {s : Symbol}

theorem skip (h : Leveled (key :: keys) ctx) (hkey : ctx.symbol? key = none) : Leveled keys ctx := by
  refine ⟨h.sound, fun k s hs hcall => ?_, fun k hk => h.calls k (List.mem_cons_of_mem _ hk)⟩
  rcases h.flat k s hs hcall with hmem | hflat
  · rcases List.mem_cons.mp hmem with rfl | hmem
    · rw [hkey] at hs
      cases hs
    · exact .inl hmem
  · exact .inr hflat

/-- A symbol that is no call has a text that is laid out. -/
theorem laid (h : Leveled (key :: keys) ctx) (hkey : ctx.symbol? key = some s) :
    s.text ≠ [] ∧ Laid false s.text := by
  have hcall := h.calls key (List.mem_cons_self ..) s hkey
  cases h.sound key s hkey with
  | call => cases hcall
  | text hne hlaid => exact ⟨hne, hlaid⟩

theorem step (h : Leveled (key :: keys) ctx) (hkey : ctx.symbol? key = some s)
    (hflat : Flattens ['('] [')'] s.text ctx text ctx₁) : Leveled keys (ctx₁.setText key text) := by
  obtain ⟨hne, hlaid⟩ := h.laid hkey
  obtain ⟨hlaid', hne', hflat', hsymbols⟩ := hflat.sound hlaid hne
  -- a symbol is the one that is changed, one from before or a new one
  have hcases (k : Text) (s' : Symbol) (hs : (ctx₁.setText key text).symbol? k = some s') :
      k = key ∧ s' = ⟨text, false⟩ ∨
        k ≠ key ∧ (ctx.symbol? k = some s' ∨ s'.IsSound ∧ s'.isCall = false ∧ '(' ∉ s'.text) := by
    rw [symbol?_setText] at hs
    obtain ⟨s₁, hs₁, rfl⟩ := Option.map_eq_some_iff.mp hs
    by_cases hk : k = key
    · subst hk
      have hcall : s₁.isCall = false :=
        (hsymbols _ s₁ hs₁).elim (h.calls k (List.mem_cons_self ..) s₁) fun h => h.2.1
      rw [if_pos rfl, ← hcall]
      exact .inl ⟨rfl, rfl⟩
    · rw [if_neg hk]
      exact .inr ⟨hk, hsymbols k s₁ hs₁⟩
  refine ⟨fun k s' hs => ?_, fun k s' hs hcall => ?_, fun k hk s' hs => ?_⟩
  · rcases hcases k s' hs with ⟨-, rfl⟩ | ⟨-, hs | ⟨hsound, -⟩⟩
    · exact .text hne' hlaid'
    · exact h.sound k s' hs
    · exact hsound
  · rcases hcases k s' hs with ⟨-, rfl⟩ | ⟨hk, hs | ⟨-, -, hnew⟩⟩
    · exact .inr hflat'
    · exact (h.flat k s' hs hcall).imp_left fun hmem => (List.mem_cons.mp hmem).resolve_left hk
    · exact .inr hnew
  · rcases hcases k s' hs with ⟨-, rfl⟩ | ⟨-, hs | ⟨-, hcall, -⟩⟩
    · rfl
    · exact h.calls k (List.mem_cons_of_mem _ hk) s' hs
    · exact hcall

end Leveled

theorem FlattensAll.leveled {keys : List Text} {ctx ctx' : Context}
    (h : FlattensAll ['('] [')'] keys ctx ctx') (hctx : Leveled keys ctx) : Leveled [] ctx' := by
  induction h with
  | nil => exact hctx
  | skip hkey _ ih => exact ih (hctx.skip hkey)
  | symbol hkey hflat _ ih => exact ih (hctx.step hkey hflat)

/-- Taking the groups out of symbols: what the tables agree with at the end, they agree with from the
start. -/
theorem FlattensAll.agrees {content : Text → Option Text} {keeps : Text → Prop} {source : Text}
    (hkeeps : ∀ w, keeps w → Text.contains w source = true) {keys : List Text} {ctx ctx' : Context}
    (h : FlattensAll ['('] [')'] keys ctx ctx') (hctx : Leveled keys ctx)
    (hsource : ctx.source = source) (hagrees : ∀ key, Source.Agrees content keeps ctx' key) :
    ∀ key, Source.Agrees content keeps ctx key := by
  induction h with
  | nil => exact hagrees
  | skip hkey _ ih => exact ih (hctx.skip hkey) hsource hagrees
  | @symbol key text keys symbol ctx ctx₁ ctx' hkey hflat _ ih =>
    have hcurrent : (ctx.symbol? key).isSome := by
      rw [hkey]
      rfl
    obtain ⟨hsource₁, hcurrent₁⟩ : ctx₁.source = source ∧ (ctx₁.symbol? key).isSome :=
      hflat.preserves (P := fun ctx => ctx.source = source ∧ (ctx.symbol? key).isSome)
        (fun ctx text hctx => ⟨hctx.1, isSome_symbol?_addSymbol hctx.2 text false⟩)
        ⟨hsource, hcurrent⟩
    have hset := ih (hctx.step hkey hflat) hsource₁ hagrees
    obtain ⟨hothers, hunfolds⟩ := hflat.unfolds hkeeps (hctx.laid hkey).2 hsource hcurrent
      fun k hk s hs => hset k s (by rw [symbol?_setText, hs, Option.map_some, if_neg hk])
    intro k s hs
    by_cases hk : k = key
    · subst hk
      obtain rfl := Option.some.inj (hkey.symm.trans hs)
      obtain ⟨s₁, hs₁⟩ := Option.isSome_iff_exists.mp hcurrent₁
      have hcovers := hset k { s₁ with text } (by rw [symbol?_setText, hs₁, Option.map_some, if_pos rfl])
      exact fun text us htext h => hunfolds us (hcovers text us htext h)
    · exact hothers k hk s hs

end Context

end Formula
