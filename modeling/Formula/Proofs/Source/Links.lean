import Formula.Proofs.Source.LeafOrder

/-!
# All parts of a text are built

A part of a text is set aside under a name that stands where the part stood. So from the text that is
left at the end every symbol can be reached, from one text to the names in it. Where operands stand
apart these names are words, and building a text builds all symbols whose names are words of it. So in
a compilation that succeeds every symbol of the tables is built, and its parameters are among those of
the whole tree.

## Main definitions

* `TreeBuilder.Holds`: a symbol is built, with its parameters among given ones.

## Main results

* `TreeBuilder.Derives.holds`: the symbols named in a text that is built.
* `Context.Takes.reaches`, `Context.FlattensAll.reaches`: every symbol is reached from the text that is
  left.
* `Compiler.Resolves.holds`: every symbol is built.
-/

namespace Formula

open Text

/-! ### Symbols that are reached -/

namespace Context

section Reaches

variable {R : Text → Prop}

/-- A symbol stays as it is while calls are taken out. -/
theorem Takes.symbol?_eq {tokens : CallTokens} {job : Job} {results : List Text} {ctx ctx' : Context}
    (h : Takes tokens job ctx results ctx') {key : Text} {s : Symbol} (hs : ctx.symbol? key = some s) :
    ctx'.symbol? key = some s :=
  h.preserves (P := fun ctx => ctx.symbol? key = some s)
    (fun _ text isCall hs => symbol?_addSymbol hs text isCall) hs

theorem Takes.isSome_symbol? {tokens : CallTokens} {job : Job} {results : List Text}
    {ctx ctx' : Context} (h : Takes tokens job ctx results ctx') {key : Text}
    (hkey : (ctx.symbol? key).isSome) : (ctx'.symbol? key).isSome := by
  obtain ⟨s, hs⟩ := Option.isSome_iff_exists.mp hkey
  rw [h.symbol?_eq hs]
  rfl

theorem Flattens.symbol?_eq {text text' : Text} {ctx ctx' : Context}
    (h : Flattens ['('] [')'] text ctx text' ctx') {key : Text} {s : Symbol}
    (hs : ctx.symbol? key = some s) : ctx'.symbol? key = some s :=
  h.preserves (P := fun ctx => ctx.symbol? key = some s)
    (fun _ text hs => symbol?_addSymbol hs text false) hs

/-- What is reached leads on to the names in its text. This leaves out the symbol whose text is changed
next. -/
def Closed (R : Text → Prop) (current : Text) (ctx : Context) : Prop :=
  ForallBut (fun key s => R key → ∀ w ∈ words s.text, R w) current ctx

theorem Closed.mono {current : Text} {ctx ctx' : Context} (h : Closed R current ctx')
    (hkept : ∀ key s, ctx.symbol? key = some s → ctx'.symbol? key = some s) : Closed R current ctx :=
  fun key hkey s hs => h key hkey s (hkept key s hs)

/-- A new symbol that is reached leads on. -/
theorem Closed.of_addSymbol {current : Text} {ctx ctx' : Context}
    (hcurrent : (ctx.symbol? current).isSome) {text : Text} {isCall : Bool}
    (hkept : ∀ key s, (ctx.addSymbol text isCall).2.symbol? key = some s → ctx'.symbol? key = some s)
    (h : Closed R current ctx') (hname : R (ctx.addSymbol text isCall).1) : ∀ w ∈ words text, R w := by
  refine h (ctx.addSymbol text isCall).1 ?_ ⟨text, isCall⟩
    (hkept _ _ (symbol?_addSymbol_self ctx text isCall)) hname
  rintro rfl
  rw [symbol?_addSymbol_fst] at hcurrent
  cases hcurrent

section Takes

variable {tokens : CallTokens} (hopening : tokens.opening = ['(']) (hclosing : tokens.closing = [')'])
  (hseparator : tokens.separator = [','])
include hopening hclosing hseparator

/-- Taking calls out: the new symbols are reached from what is left. -/
theorem Takes.reaches {job : Job} {results : List Text} {ctx ctx' : Context}
    (h : Takes tokens job ctx results ctx') (hjob : job.IsSound) {current : Text}
    (hcurrent : (ctx.symbol? current).isSome) (hclosed : Closed R current ctx')
    (hresults : ∀ w ∈ results.flatMap words, R w) {key : Text} {s : Symbol}
    (hs : ctx'.symbol? key = some s) : ctx.symbol? key = some s ∨ R key := by
  induction h generalizing key s with
  | done | nil => exact .inl hs
  | @call rest head name tail inner after text operands ctx ctx₁ ctx' hfind hclose hargs hrest ihargs
      ihrest =>
    obtain ⟨-, -, hgap, hafter, harguments, -⟩ :=
      exists_of_search hopening hclosing hseparator hjob hfind hclose
    have hcurrent₁ : (ctx₁.symbol? current).isSome := hargs.isSome_symbol? hcurrent
    have hkept (k : Text) (s : Symbol)
        (hs : (ctx₁.addSymbol (tokens.call name operands) true).2.symbol? k = some s) :
        ctx'.symbol? k = some s := hrest.symbol?_eq hs
    -- the name of the call is a word of what is left
    obtain ⟨_, heq, -, -, hfirst⟩ := hrest.laid hopening hclosing rfl hafter
    obtain rfl := List.singleton_inj.mp heq
    obtain ⟨hnewne, hnewchars⟩ := ctx₁.addSymbol_word (tokens.call name operands) true
    have hisolated : IsolatedBy head text := Gap.isolatedBy ⟨hgap.left, hfirst hgap.right⟩
    rw [List.flatMap_singleton, words_isolated hnewne hnewchars hisolated, List.forall_mem_append,
      List.forall_mem_cons] at hresults
    obtain ⟨-, hname, htext⟩ := hresults
    rcases ihrest hafter (isSome_symbol?_addSymbol hcurrent₁ _ _) hclosed (by simpa using htext) hs
      with hs | hreached
    · rcases eq_or_symbol?_of_addSymbol hs with ⟨rfl, -⟩ | hs
      · exact .inr hname
      · have hwords := hclosed.of_addSymbol hcurrent₁ hkept hname
        rw [words_call hopening hclosing hseparator, List.forall_mem_append] at hwords
        exact ihargs harguments hcurrent
          (hclosed.mono fun k s hs => hkept k s (symbol?_addSymbol hs _ _)) hwords.2 hs
    · exact .inr hreached
  | @plain arg text args operands ctx ctx₁ ctx' harg hne hplain hrest iharg ihrest =>
    obtain ⟨⟨hlaid, -⟩, hargs⟩ := List.forall_mem_cons.mp hjob
    rw [List.flatMap_cons, List.forall_mem_append] at hresults
    rcases ihrest hargs (harg.isSome_symbol? hcurrent) hclosed hresults.2 hs with hs | hreached
    · exact iharg hlaid hcurrent (hclosed.mono fun k s hs => hrest.symbol?_eq hs)
        (by simpa using hresults.1) hs
    · exact .inr hreached
  | @named arg text args operands ctx ctx₁ ctx' harg hne _ hrest iharg ihrest =>
    obtain ⟨⟨hlaid, -⟩, hargs⟩ := List.forall_mem_cons.mp hjob
    have hcurrent₁ : (ctx₁.symbol? current).isSome := harg.isSome_symbol? hcurrent
    have hkept (k : Text) (s : Symbol) (hs : (ctx₁.addSymbol text false).2.symbol? k = some s) :
        ctx'.symbol? k = some s := hrest.symbol?_eq hs
    obtain ⟨hnewne, hnewchars⟩ := ctx₁.addSymbol_word text false
    rw [List.flatMap_cons, words_of_name hnewne hnewchars, List.singleton_append,
      List.forall_mem_cons] at hresults
    obtain ⟨hname, hoperands⟩ := hresults
    rcases ihrest hargs (isSome_symbol?_addSymbol hcurrent₁ _ _) hclosed hoperands hs
      with hs | hreached
    · rcases eq_or_symbol?_of_addSymbol hs with ⟨rfl, -⟩ | hs
      · exact .inr hname
      · refine iharg hlaid hcurrent
          (hclosed.mono fun k s hs => hkept k s (symbol?_addSymbol hs _ _)) ?_ hs
        simpa using hclosed.of_addSymbol hcurrent₁ hkept hname
    · exact .inr hreached

end Takes

/-- Taking groups out of a text: its names and the new symbols are reached from what is left. -/
theorem Flattens.reaches {text text' : Text} {ctx ctx' : Context}
    (h : Flattens ['('] [')'] text ctx text' ctx') (hlaid : Laid false text) {current : Text}
    (hcurrent : (ctx.symbol? current).isSome) (hclosed : Closed R current ctx')
    (htext : ∀ w ∈ words text', R w) : (∀ w ∈ words text, R w) ∧
      ∀ key s, ctx'.symbol? key = some s → ctx.symbol? key = some s ∨ R key := by
  induction h with
  | done => exact ⟨htext, fun _ _ hs => .inl hs⟩
  | known hopen hclose _ _ _ ih =>
    obtain ⟨hlaid', -, hgap, hwords, hput⟩ := exists_of_group hlaid hopen hclose
    obtain ⟨hreached, hsymbols⟩ := ih (hput _ hlaid') hcurrent hclosed htext
    rw [hgap.words_append, ← hwords] at hreached
    exact ⟨hreached, hsymbols⟩
  | @group text before tail inner rest text' ctx ctx' hopen hclose _ _ hflat ih =>
    obtain ⟨-, -, hgap, hwords, hput⟩ := exists_of_group hlaid hopen hclose
    obtain ⟨hnewne, hnewchars⟩ := ctx.addSymbol_word inner false
    have hnew : Laid false (ctx.addSymbol inner false).1 := by
      rw [Laid, pieces_of_name hnewne hnewchars]
      exact List.isChain_singleton _
    obtain ⟨hreached, hsymbols⟩ :=
      ih (hput _ hnew) (isSome_symbol?_addSymbol hcurrent inner false) hclosed htext
    rw [words_isolated hnewne hnewchars hgap.isolatedBy, List.forall_mem_append,
      List.forall_mem_cons] at hreached
    obtain ⟨hbefore, hname, hrest⟩ := hreached
    have hinner := hclosed.of_addSymbol hcurrent (fun k s hs => hflat.symbol?_eq hs) hname
    refine ⟨?_, fun key s hs => ?_⟩
    · rw [hwords]
      exact List.forall_mem_append.mpr ⟨hbefore, List.forall_mem_append.mpr ⟨hinner, hrest⟩⟩
    · rcases hsymbols key s hs with hs | hreached
      · rcases eq_or_symbol?_of_addSymbol hs with ⟨rfl, -⟩ | hs
        · exact .inr hname
        · exact .inl hs
      · exact .inr hreached

/-- Taking the groups out of symbols: what is reached leads on from the start if it does at the end,
and if all symbols are reached before, all are afterwards. -/
theorem FlattensAll.reaches {keys : List Text} {ctx ctx' : Context}
    (h : FlattensAll ['('] [')'] keys ctx ctx') (hctx : Leveled keys ctx)
    (hclosed : ∀ key s, ctx'.symbol? key = some s → R key → ∀ w ∈ words s.text, R w) :
    (∀ key s, ctx.symbol? key = some s → R key → ∀ w ∈ words s.text, R w) ∧
      ((∀ key s, ctx.symbol? key = some s → R key) → ∀ key s, ctx'.symbol? key = some s → R key) := by
  induction h with
  | nil => exact ⟨hclosed, id⟩
  | skip hkey _ ih => exact ih (hctx.skip hkey) hclosed
  | @symbol key text keys symbol ctx ctx₁ ctx' hkey hflat _ ih =>
    have hcurrent : (ctx.symbol? key).isSome := by
      rw [hkey]
      rfl
    have hset (k : Text) (s : Symbol) (hs : ctx₁.symbol? k = some s) :
        (ctx₁.setText key text).symbol? k = some (if k = key then { s with text } else s) := by
      rw [symbol?_setText, hs, Option.map_some]
    obtain ⟨hclosed, hall⟩ := ih (hctx.step hkey hflat) hclosed
    have hothers : Closed R key ctx₁ := fun k hk s hs hreached =>
      hclosed k s (by rw [hset k s hs, if_neg hk]) hreached
    have htext (hreached : R key) : (∀ w ∈ words symbol.text, R w) ∧
        ∀ k s, ctx₁.symbol? k = some s → ctx.symbol? k = some s ∨ R k :=
      hflat.reaches (hctx.laid hkey).2 hcurrent hothers
        (hclosed key { symbol with text } (by rw [hset key symbol (hflat.symbol?_eq hkey), if_pos rfl])
          hreached)
    refine ⟨fun k s hs hreached => ?_, fun hfirst => hall fun k s hs => ?_⟩
    · by_cases hk : k = key
      · subst hk
        obtain rfl := Option.some.inj (hkey.symm.trans hs)
        exact (htext hreached).1
      · exact hothers k hk s (hflat.symbol?_eq hs) hreached
    · rw [symbol?_setText] at hs
      obtain ⟨s₁, hs₁, -⟩ := Option.map_eq_some_iff.mp hs
      exact ((htext (hfirst key symbol hkey)).2 k s₁ hs₁).elim (hfirst k s₁) id

end Reaches

end Context

/-! ### Symbols that are built -/

namespace Markers

/-- The words of a text are words of the text with its operators marked. -/
theorem words_subset_mark (text : Text) : Text.words text ⊆ Text.words (common.mark text) := by
  -- without the words of the tokens, nothing else changes
  have hwords {token marked : Text} (hne : token ≠ [])
      (htoken : ∀ c ∈ token, isIdentifierChar c = false) (hmarked : Token.isOuter marked = true)
      (parts : List Text) :
      Text.words (token.intercalate parts) ⊆ Text.words (marked.intercalate parts) := by
    induction parts with
    | nil => exact List.Subset.refl _
    | cons part parts ih =>
      cases parts with
      | nil => exact List.Subset.refl _
      | cons next parts =>
        rw [List.intercalate_cons_cons, List.intercalate_cons_cons, words_append_token hne htoken,
          words_append_outer hmarked]
        exact List.append_subset.mpr ⟨fun w hw => by simp [hw], fun w hw => by simp [ih hw]⟩
  have hfold (tokens : List (Text × Text)) (htokens : ∀ entry ∈ tokens, entry ∈ common.tokens)
      (text : Text) : Text.words text ⊆ Text.words (tokens.foldl (fun text entry =>
        if entry.1 = entry.2 then text else replaceAll entry.1 entry.2 text) text) := by
    induction tokens generalizing text with
    | nil => exact List.Subset.refl _
    | cons entry tokens ih =>
      obtain ⟨hentry, htokens⟩ := List.forall_mem_cons.mp htokens
      refine List.Subset.trans ?_ (ih htokens _)
      dsimp only
      split
      · exact List.Subset.refl _
      · next hne =>
        obtain ⟨hnonempty, hchars, w, hw, hmark⟩ :=
          (Source.eq_or_mark_of_mem_tokens hentry).resolve_left hne
        have houter : Token.isOuter entry.2 = true := hmark ▸ Source.isOuter_marker hw
        have := hwords hnonempty hchars houter (splitAll entry.1 text)
        rwa [intercalate_splitAll hnonempty] at this
  exact hfold _ (fun _ h => h) text

end Markers

namespace TreeBuilder

section Holds

variable {style : Precedence} {ctx tables : Context} {ids : List Nat}

/-- A text is built, and its parameters are among given ones. -/
def BuildsWithin (t : TreeBuilder) (ids : List Nat) (text : Text) : Prop :=
  ∃ node, t.Derives text node ∧ node.leaves ⊆ ids

/-- The symbol with a name, if there is one, is built, and its parameters are among given ones. -/
structure Holds (t : TreeBuilder) (ids : List Nat) (key : Text) : Prop where
  text : ∀ s, t.context.symbol? key = some s → s.isCall = false → t.BuildsWithin ids s.text
  call : ∀ s, t.context.symbol? key = some s → s.isCall = true → ∃ name inner f,
    t.splitCall? s.text = some (name, inner) ∧
      Function.lookup? (String.ofList name) (t.callArguments inner).length = some f ∧
        ∀ arg ∈ t.callArguments inner, t.BuildsWithin ids arg

theorem holds_of_none {t : TreeBuilder} {key : Text} (h : t.context.symbol? key = none) :
    t.Holds ids key :=
  ⟨fun _ hs => (nomatch h.symm.trans hs), fun _ hs => (nomatch h.symm.trans hs)⟩

/-- Symbols are told apart from all else that is named in a text. -/
structure Distinct (ctx : Context) : Prop where
  constants : ∀ key, (ctx.constant? key).isSome → ∀ w ∈ words key, ctx.symbol? w = none
  params : ∀ p ∈ ctx.params, isIdentifier p.name.toList = true ∧ ctx.symbol? p.name.toList = none
  marks : ∀ w ∈ Source.markerNames, ctx.symbol? w = none

/-- The words of the tokens of operators are names of marks. -/
theorem words_tokens (style : Precedence) (ctx : Context) :
    (∀ entry ∈ (common style ctx).binary, ∀ w ∈ words entry.2.2, w ∈ Source.markerNames) ∧
      ∀ entry ∈ (common style ctx).unary, ∀ w ∈ words entry.2, w ∈ Source.markerNames := by
  have hbinary : ((common style ctx).binary.all fun entry =>
      (words entry.2.2).all fun w => decide (w ∈ Source.markerNames)) = true := by
    simp only [common, ofDefinition]
    cases style <;> decide
  have hunary : ((common style ctx).unary.all fun entry =>
      (words entry.2).all fun w => decide (w ∈ Source.markerNames)) = true := by
    simp only [common, ofDefinition]
    cases style <;> decide
  exact ⟨fun entry hentry w hw =>
      of_decide_eq_true (List.all_eq_true.mp (List.all_eq_true.mp hbinary entry hentry) w hw),
    fun entry hentry w hw =>
      of_decide_eq_true (List.all_eq_true.mp (List.all_eq_true.mp hunary entry hentry) w hw)⟩

/-- The symbols named in a text that is built are built. -/
theorem Derives.holds (hctx : Marks ctx tables) (hdistinct : Distinct ctx) {key : Text} {node : Node}
    (h : (common style ctx).Derives key node) (hopen : '(' ∉ key) (hids : node.leaves ⊆ ids) :
    ∀ w ∈ words key, (common style ctx).Holds ids w := by
  obtain ⟨hopening, hclosing, -⟩ := Compiler.delimiters_common style
  obtain ⟨hbinary, hunary⟩ := isOuter_tokens style ctx
  obtain ⟨hbinaryWords, hunaryWords⟩ := words_tokens style ctx
  have hleaves {head : Head} {operands : List Node} {node : Node}
      (hnode : (common style ctx).Assembles head operands node) {text : Text}
      (hids : (node.fold (common style ctx).registry ((common style ctx).plain text)).leaves ⊆ ids) :
      ∀ n ∈ operands, n.leaves ⊆ ids := by
    rw [hnode.leaves_fold] at hids
    exact fun n hn id hid => hids (List.mem_flatMap.mpr ⟨n, hn, hid⟩)
  induction h with
  | constant hkey =>
    have hconstant : (ctx.constant? _).isSome = true := Option.isSome_of_eq_some hkey
    exact fun w hw => holds_of_none (hdistinct.constants _ hconstant w hw)
  | parameter hkey =>
    obtain ⟨⟨p, hp, rfl⟩, -⟩ := reads_parameter hkey
    obtain ⟨hidentifier, hnone⟩ := hdistinct.params p hp
    obtain ⟨hne, hchars⟩ := isIdentifierChar_of_isIdentifier hidentifier
    rw [words_of_name hne hchars]
    exact List.forall_mem_singleton.mpr (holds_of_none hnone)
  | @symbol key symbol node hkey hplain hnode _ =>
    by_cases hne : key = []
    · simp [hne]
    rw [hctx.words_key hkey hne]
    refine List.forall_mem_singleton.mpr ⟨fun s hs _ => ?_, fun s hs hcall => ?_⟩
    · obtain rfl := Option.some.inj (hkey.symm.trans hs)
      exact ⟨node, hnode, hids⟩
    · obtain rfl := Option.some.inj (hkey.symm.trans hs)
      cases hplain.symm.trans hcall
  | @call key text name inner f operands node hkey hcall hlookup hlen hoperands hnode =>
    rcases hkey with rfl | ⟨symbol, hkey, hiscall, rfl⟩
    · refine absurd ?_ hopen
      rw [(eq_of_splitCall? hopening hclosing hcall).1]
      simp
    by_cases hne : key = []
    · simp [hne]
    rw [hctx.words_key hkey hne]
    refine List.forall_mem_singleton.mpr ⟨fun s hs hplain => ?_, fun s hs _ => ?_⟩
    · obtain rfl := Option.some.inj (hkey.symm.trans hs)
      cases hplain.symm.trans hiscall
    · obtain rfl := Option.some.inj (hkey.symm.trans hs)
      exact ⟨name, inner, f, hcall, hlookup, exists_operand hlen fun p hp =>
        ⟨hoperands p hp, hleaves hnode hids _ (List.of_mem_zip hp).2⟩⟩
  | @binary text split left right node hsplit _ _ hnode ihleft ihright =>
    obtain ⟨entry, hentry, htext⟩ := exists_token_of_mem_candidates hsplit
    have hwords : words text = words (text.take split.place) ++ words entry.2.2 ++
        words (text.drop (split.place + split.width)) := by
      conv_lhs => rw [htext, words_append_outer (hbinary entry hentry)]
    rw [htext] at hopen
    simp only [List.mem_append, not_or] at hopen
    rw [hwords, List.forall_mem_append, List.forall_mem_append]
    exact ⟨⟨ihleft hopen.1.1 (hleaves hnode hids _ (by simp)), fun w hw =>
      holds_of_none (hdistinct.marks w (hbinaryWords entry hentry w hw))⟩,
      ihright hopen.2 (hleaves hnode hids _ (by simp))⟩
  | @unary text rest token op operand node hop htoken _ _ hnode ih =>
    obtain rfl := after?_eq_some_iff.mp htoken
    have hwords := words_append_outer (hunary _ hop) [] rest
    rw [List.nil_append, words_nil, List.nil_append] at hwords
    rw [hwords, List.forall_mem_append]
    exact ⟨fun w hw => holds_of_none (hdistinct.marks w (hunaryWords _ hop w hw)),
      ih (fun hmem => hopen (List.mem_append_right _ hmem)) (hleaves hnode hids _ (by simp))⟩

end Holds

end TreeBuilder

namespace Compiler

variable {style : Precedence} {source : Text} {ctx : Context}

/-- In the tables of a source whose operands stand apart, symbols are told apart from all else. -/
theorem Resolves.distinct (h : (common style).Resolves source ctx)
    (hapart : Source.QuotesApart (Source.outside source)) : TreeBuilder.Distinct ctx := by
  refine ⟨fun key hkey w hw => ?_, fun p hp => ⟨h.isIdentifier_of_parameter hp, ?_⟩,
    fun w => h.symbol?_markerName⟩
  · refine Option.eq_none_iff_forall_not_mem.mpr fun s hs => ?_
    rcases h.tidy.symbol_cases hs with rfl | ⟨n, -, rfl, hfree⟩
    · exact ne_nil_of_mem_words hw rfl
    rcases h.tidy.foreign key (Context.mem_of_isSome_constant? hkey) with hliteral | hforeign
    · obtain ⟨m, -, rfl⟩ := h.tidy.numbered key (List.mem_append_left _ hliteral)
      rw [words_of_name (Source.generatedName_word m).1 (Source.generatedName_word m).2,
        List.mem_singleton] at hw
      rw [hw, h.tidy.apart _ hliteral] at hs
      cases hs
    · obtain ⟨before, rest, rfl, -⟩ := exists_of_mem_words hw
      rw [hforeign.names n (contains_iff.mpr ⟨before, rest, rfl⟩)] at hfree
      cases hfree
  · exact h.symbol?_eq_none_of_contains
      (isIdentifierChar_of_isIdentifier (h.isIdentifier_of_parameter hp)).1
      (h.contains_source_of_parameter hapart hp)

namespace Staged

variable (S : Staged style source ctx) {ids : List Nat}

/-- A symbol that is built leads on to symbols that are built. -/
theorem closed (h : (common style).Resolves source ctx)
    (hapart : Source.QuotesApart (Source.outside source)) {key : Text} {s : Symbol}
    (hs : S.tables.symbol? key = some s) (hholds : (TreeBuilder.common style ctx).Holds ids key) :
    ∀ w ∈ words s.text, (TreeBuilder.common style ctx).Holds ids w := by
  obtain ⟨hopening, hclosing, hseparator⟩ := delimiters_common style
  have hmarks := S.marks h
  have hdistinct := h.distinct hapart
  have hkey : ctx.symbol? key = some s.marked := by rw [S.symbols, hs, Option.map_some]
  cases hcall : s.isCall with
  | false =>
    obtain ⟨node, hnode, hids⟩ := hholds.text _ hkey ((Symbol.isCall_marked s).trans hcall)
    rw [Symbol.text_marked hcall] at hnode
    have hopen : '(' ∉ s.text := (hmarks.level.flat key s hs hcall).resolve_left List.not_mem_nil
    intro w hw
    exact hnode.holds hmarks hdistinct (Context.not_mem_mark (by decide) hopen) hids w
      (Markers.words_subset_mark _ hw)
  | true =>
    obtain ⟨name, inner, f, hsplit, hlookup, hargs⟩ :=
      hholds.call _ hkey ((Symbol.isCall_marked s).trans hcall)
    rw [Symbol.marked_of_isCall hcall] at hsplit hkey
    obtain ⟨-, name', operands, htext, hname', hoperands⟩ := hmarks.call hkey hcall
    rw [htext] at hsplit
    obtain ⟨rfl, harguments⟩ :=
      TreeBuilder.callArguments_eq hopening hclosing hseparator hname' hoperands hsplit
    rw [harguments] at hargs
    have hcalled : s.text = (common style).tokens.call name operands := by
      rw [htext, Context.CallTokens.call, hopening, hclosing, hseparator]
    rw [hcalled, Context.words_call hopening hclosing hseparator, List.forall_mem_append]
    refine ⟨fun w hw => TreeBuilder.holds_of_none ?_, fun w hw => ?_⟩
    · -- a symbol is not named as a function
      refine Option.eq_none_iff_forall_not_mem.mpr fun s hs => ?_
      obtain ⟨before, rest, hword, -⟩ := exists_of_mem_words hw
      rcases h.tidy.symbol_cases hs with rfl | ⟨n, -, rfl, -⟩
      · exact ne_nil_of_mem_words hw rfl
      · cases (contains_of_lookup? hlookup n).symm.trans (contains_iff.mpr ⟨before, rest, hword⟩)
    · obtain ⟨arg, harg, hw⟩ := List.mem_flatMap.mp hw
      obtain ⟨node, hnode, hids⟩ := hargs arg harg
      exact hnode.holds hmarks hdistinct (hoperands arg harg).2.1 hids w hw

end Staged

/-- In a compilation that succeeds, every symbol is built, and its parameters are among those of the
whole tree. -/
theorem Resolves.holds (h : (common style).Resolves source ctx) (hseparated : Source.Separated source)
    (hclosed : '"' ∉ Source.tail source) {node : Node}
    (hderives : (TreeBuilder.common style ctx).Derives Context.mainName node)
    {key : Text} {s : Symbol} (hs : ctx.symbol? key = some s) :
    (TreeBuilder.common style ctx).Holds node.leaves key := by
  obtain ⟨S⟩ := h.staged hseparated hclosed
  obtain ⟨hopening, hclosing, hseparator⟩ := delimiters_common style
  have hapart := quotesApart_of_withoutBlanks (Source.quotesApart_of_laid hseparated.laid)
  obtain ⟨-, -, hcalled⟩ := S.symbols_called
  have hmain : (TreeBuilder.common style ctx).Holds node.leaves Context.mainName := by
    obtain ⟨s, hs, hplain, hnode⟩ := h.derives_main hseparated hclosed hderives
    refine ⟨fun s' hs' _ => ?_, fun s' hs' hcall => ?_⟩
    · obtain rfl := Option.some.inj (hs.symm.trans hs')
      exact ⟨node, hnode, List.Subset.refl _⟩
    · obtain rfl := Option.some.inj (hs.symm.trans hs')
      cases hplain.symm.trans hcall
  have hset (key : Text) (s : Symbol) (hs : S.called.symbol? key = some s) :
      (S.called.setText Context.mainName S.plain).symbol? key =
        some (if key = Context.mainName then { s with text := S.plain } else s) := by
    rw [Context.symbol?_setText, hs, Option.map_some]
  obtain ⟨hreached, hall⟩ :=
    S.flattens.reaches S.leveled fun key s hs hholds => S.closed h hapart hs hholds
  have hothers : Context.Closed (TreeBuilder.common style ctx |>.Holds node.leaves)
      Context.mainName S.called := fun key hkey s hs hholds =>
    hreached key s (by rw [hset key s hs, if_neg hkey]) hholds
  have hplain : ∀ w ∈ words S.plain, (TreeBuilder.common style ctx).Holds node.leaves w :=
    hreached Context.mainName ⟨S.plain, false⟩ (by rw [hset _ _ hcalled, if_pos rfl]) hmain
  have hstart : (S.start.symbol? Context.mainName).isSome = true := by
    rw [Context.symbol?, S.symbols_start]
    rfl
  have htables := hall fun key s hs => by
    rw [Context.symbol?_setText] at hs
    obtain ⟨s', hs', -⟩ := Option.map_eq_some_iff.mp hs
    rcases S.takes.reaches hopening hclosing hseparator S.cleared.laid hstart hothers
      (by simpa using hplain) hs' with hs' | hholds
    · exact (S.symbol?_start hs').1 ▸ hmain
    · exact hholds
  rw [S.symbols] at hs
  obtain ⟨s', hs', -⟩ := Option.map_eq_some_iff.mp hs
  exact htables key s' hs'

end Compiler

end Formula
