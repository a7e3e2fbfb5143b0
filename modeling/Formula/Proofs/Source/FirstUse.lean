import Formula.Proofs.Compile.Ordering
import Formula.Proofs.Source.Links
import Formula.Proofs.Source.StrippedTexts

/-!
# Parameters in the order of their first use

A parameter is an operand of a part of the text, and all parts are built, so every parameter is a leaf
of the tree. The order of the parameters is that of the first occurrences of their names as whole words.
The leaves stand in the tree as their names stand in the source, if white space makes no names. So the
parameters are in the order in which the tree meets them, unless a name stands in the source where it is
no operand, as the name of a function does.

## Main definitions

* `TreeBuilder.Visible`: parameters are told apart from all else that a text is split into.

## Main results

* `TreeBuilder.Derives.mem_leaves`: a parameter that is a field of a text is a leaf of its tree.
* `Compiler.Resolves.mem_leaves`: every parameter is a leaf of the tree.
* `Compiler.parameters_first_use`: the parameters are ordered by their first occurrences.
* `Compiler.parameters_called`: the name of a function counts as an occurrence.
-/

namespace Formula

open Text

/-! ### Literals among the operands -/

namespace Source

/-- The characters of operators that stand in literals. -/
def signs : Text := ['+', '-', '&']

theorem mem_signs_of_isLiteralChar {c : Char} (h : Literal.isLiteralChar c = true)
    (hc : isOperatorChar c = true) : c ∈ signs := by
  have hall : (['@', '!', '#', '%', '&', '*', '+', '-', '/', '<', '=', '>', '^', '|'].all fun c =>
      !Literal.isLiteralChar c || decide (c ∈ signs)) = true := by decide
  have := List.all_eq_true.mp hall c (of_decide_eq_true hc)
  rw [h] at this
  exact of_decide_eq_true this

theorem exists_token_of_mem_signs {c : Char} (hc : c ∈ signs) :
    ([c], [c]) ∈ Markers.common.tokens := by
  have hall : (signs.all fun c => decide (([c], [c]) ∈ Markers.common.tokens)) = true := by decide
  exact of_decide_eq_true (List.all_eq_true.mp hall c hc)

/-- An operand of a marked text has no signs: each is an operator. -/
theorem not_mem_operandsFrom {c : Char} (hc : c ∈ signs) {skip : Nat} {text x : Text}
    (hx : x ∈ Markers.common.operandsFrom skip text) : c ∉ x := by
  induction text generalizing skip x with
  | nil =>
    obtain rfl : x = [] := by simpa [Markers.operandsFrom] using hx
    exact List.not_mem_nil
  | cons d text ih =>
    cases skip with
    | succ skip => exact ih hx
    | zero =>
      rw [Markers.operandsFrom] at hx
      split at hx
      · rcases List.mem_cons.mp hx with rfl | hx
        · exact List.not_mem_nil
        · exact ih hx
      · next hnone =>
        have hd : c ≠ d := by
          rintro rfl
          exact List.find?_eq_none.mp hnone _ (exists_token_of_mem_signs hc)
            (by simp)
        obtain ⟨y, ys, hsplit⟩ := List.exists_cons_of_ne_nil (operandsFrom_ne_nil Markers.common 0 text)
        rw [hsplit, List.modifyHead_cons] at hx
        rcases List.mem_cons.mp hx with rfl | hx
        · exact List.not_mem_cons_of_ne_of_not_mem hd (ih (hsplit ▸ List.mem_cons_self ..))
        · exact ih (hsplit ▸ List.mem_cons_of_mem _ hx)

/-- What is known of a key when the operands are sorted out: it is quoted, or it has no names for
parts, or it is a hexadecimal number. -/
def HidesNoName (key : Text) : Prop :=
  '"' ∈ key ∨ (Unhexed key → ∀ p ∈ fields key, isIdentifier p = true → p = key)

/-- A literal without signs has no names for parts. -/
theorem hidesNoName_literal {x : Text} {value : Value} (h : Literal.ofGrammar? x = some value)
    (hsigns : ∀ c ∈ signs, c ∉ x) : HidesNoName x := by
  refine .inr fun _ p hp _ => ?_
  rw [fields_of_forall fun c hc => Bool.eq_false_of_not_eq_true fun hop => ?_] at hp
  · exact List.mem_singleton.mp hp
  · exact hsigns c (mem_signs_of_isLiteralChar (Literal.isLiteralChar_of_ofGrammar? h c hc) hop) hc

end Source

namespace Context

open Source

/-- The calls in the tables have no signs: their operands are plain. -/
def CallsPlain (ctx : Context) : Prop :=
  ∀ key s, ctx.symbol? key = some s → s.isCall = true → ∀ c ∈ signs, c ∉ s.text

theorem CallsPlain.addSymbol {ctx : Context} (h : ctx.CallsPlain) {text : Text} {isCall : Bool}
    (htext : isCall = true → ∀ c ∈ signs, c ∉ text) : (ctx.addSymbol text isCall).2.CallsPlain := by
  intro key s hs hcall
  rcases eq_or_symbol?_of_addSymbol hs with ⟨-, rfl⟩ | hs
  · exact htext hcall
  · exact h key s hs hcall

theorem not_mem_of_isPlain {tokens : CallTokens} (hmarkers : tokens.markers = Markers.common)
    {text : Text} (h : tokens.isPlain text = true) : ∀ c ∈ signs, c ∉ text := by
  rw [CallTokens.isPlain, Bool.and_eq_true, Bool.not_eq_true', hmarkers, Markers.containsOperator] at h
  intro c hc hmem
  obtain ⟨before, rest, rfl⟩ := List.append_of_mem hmem
  have hcontains : contains [c] (before ++ c :: rest) = true := contains_iff.mpr ⟨before, rest, by simp⟩
  have := List.any_eq_false.mp h.1 _ (exists_token_of_mem_signs hc)
  exact this hcontains

theorem signs_not_mem_word {x : Text} (hx : ∀ c ∈ x, isWordChar c = true) : ∀ c ∈ signs, c ∉ x := by
  intro c hc hmem
  have hall : (signs.all fun c => !isWordChar c) = true := by decide
  have := List.all_eq_true.mp hall c hc
  rw [hx c hmem] at this
  cases this

/-- The calls that are taken out have no signs. -/
theorem Takes.callsPlain {tokens : CallTokens} (hopening : tokens.opening = ['('])
    (hclosing : tokens.closing = [')']) (hseparator : tokens.separator = [','])
    (hmarkers : tokens.markers = Markers.common) {job : Job} {results : List Text} {ctx ctx' : Context}
    (h : Takes tokens job ctx results ctx') (hjob : job.IsSound) (hctx : ctx.CallsPlain) :
    ctx'.CallsPlain ∧ ∀ args, job = .arguments args → ∀ x ∈ results, ∀ c ∈ signs, c ∉ x := by
  induction h with
  | done | nil => exact ⟨hctx, by simp⟩
  | @call rest head name tail inner after text operands ctx ctx₁ ctx' hfind hclose hargs hrest ihargs
      ihrest =>
    obtain ⟨-, hname, -, hafter, harguments, -⟩ :=
      exists_of_search hopening hclosing hseparator hjob hfind hclose
    obtain ⟨hctx₁, hoperands⟩ := ihargs harguments hctx
    refine ⟨(ihrest hafter (hctx₁.addSymbol fun _ c hc hmem => ?_)).1, by simp⟩
    have hall : (signs.all fun c => decide (c ∉ ['(', ')', ','])) = true := by decide
    have hother := of_decide_eq_true (List.all_eq_true.mp hall c hc)
    simp only [List.mem_cons, List.not_mem_nil, or_false, not_or] at hother
    rw [CallTokens.call, hopening, hclosing, hseparator] at hmem
    simp only [List.mem_append, List.mem_singleton, hother.1, hother.2.1, or_false] at hmem
    rcases hmem with hmem | hmem
    · exact signs_not_mem_word hname.2 c hc hmem
    · rcases mem_intercalate hmem with hmem | ⟨x, hx, hmem⟩
      · exact hother.2.2 (List.mem_singleton.mp hmem)
      · exact hoperands _ rfl x hx c hc hmem
  | plain harg hne hplain hrest iharg ihrest =>
    obtain ⟨⟨hlaid, -⟩, hargs⟩ := List.forall_mem_cons.mp hjob
    obtain ⟨hctx', hoperands⟩ := ihrest hargs (iharg hlaid hctx).1
    exact ⟨hctx', fun _ _ => List.forall_mem_cons.mpr
      ⟨not_mem_of_isPlain hmarkers hplain, hoperands _ rfl⟩⟩
  | named harg hne _ hrest iharg ihrest =>
    obtain ⟨⟨hlaid, -⟩, hargs⟩ := List.forall_mem_cons.mp hjob
    obtain ⟨hctx', hoperands⟩ := ihrest hargs ((iharg hlaid hctx).1.addSymbol (by simp))
    exact ⟨hctx', fun _ _ => List.forall_mem_cons.mpr
      ⟨signs_not_mem_word fun c hc => Sorted.isWordChar_of_mem_generatedName hc, hoperands _ rfl⟩⟩

/-- Taking groups out keeps the calls. -/
theorem FlattensAll.callsPlain {keys : List Text} {ctx ctx' : Context}
    (h : FlattensAll ['('] [')'] keys ctx ctx') (hleveled : Leveled keys ctx)
    (hctx : ctx.CallsPlain) : ctx'.CallsPlain := by
  induction h with
  | nil => exact hctx
  | skip hkey _ ih => exact ih (hleveled.skip hkey) hctx
  | @symbol key text keys symbol ctx ctx₁ ctx' hkey hflat _ ih =>
    refine ih (hleveled.step hkey hflat) fun k s hs hcall => ?_
    have hctx₁ := hflat.preserves (P := CallsPlain)
      (fun _ _ h => h.addSymbol (by simp)) hctx
    have hplain : ∀ s, ctx₁.symbol? key = some s → s.isCall = false := fun s hs => by
      obtain rfl := Option.some.inj ((hflat.symbol?_eq hkey).symm.trans hs)
      exact hleveled.calls key (List.mem_cons_self ..) _ hkey
    rw [symbol?_setText] at hs
    obtain ⟨s, hsymbol, rfl⟩ := Option.map_eq_some_iff.mp hs
    by_cases hk : k = key
    · subst hk
      rw [if_pos rfl] at hcall
      cases (hplain s hsymbol).symm.trans hcall
    · rw [if_neg hk] at hcall ⊢
      exact hctx₁ k s hsymbol hcall

/-! ### The parameters that are found -/

/-- What is found stays, and what is found besides is an operand. -/
theorem classify_subset {registry : Registry} {operands : List Text} {found found' : List (Nat × Text)}
    {ctx ctx' : Context} (h : classify registry operands found ctx = .ok (found', ctx')) :
    (∀ entry ∈ found, entry ∈ found') ∧ ∀ entry ∈ found', entry ∈ found ∨ entry.2 ∈ operands := by
  induction operands generalizing found ctx with
  | nil =>
    obtain ⟨rfl, -⟩ := Prod.mk.inj (Except.ok.inj h)
    exact ⟨fun _ h => h, fun _ h => .inl h⟩
  | cons operand rest ih =>
    have hstep {ctx : Context} (h : classify registry rest found ctx = .ok (found', ctx')) :
        (∀ entry ∈ found, entry ∈ found') ∧
          ∀ entry ∈ found', entry ∈ found ∨ entry.2 ∈ operand :: rest :=
      ⟨(ih h).1, fun entry hentry => ((ih h).2 entry hentry).imp_right (List.mem_cons_of_mem _)⟩
    rw [classify] at h
    split at h
    · exact hstep h
    · dsimp only at h
      split at h
      · exact hstep h
      · split at h
        · split at h
          · obtain ⟨hkept, hfound⟩ := ih h
            refine ⟨fun entry hentry => hkept entry (List.mem_append_left _ hentry),
              fun entry hentry => ?_⟩
            rcases hfound entry hentry with hentry | hentry
            · rcases List.mem_append.mp hentry with hentry | hentry
              · exact .inl hentry
              · rw [List.mem_singleton.mp hentry]
                exact .inr (List.mem_cons_self ..)
            · exact .inr (List.mem_cons_of_mem _ hentry)
          · cases h
        · cases h

/-- A literal has a name, which is a constant. -/
theorem isSome_constant?_of_mem {source unquoted : Text} {names : List Text} {ctx : Context}
    (hctx : Sourced source unquoted names ctx) {key : Text} (hkey : key ∈ ctx.literals.map Prod.fst) :
    (ctx.constant? key).isSome = true := by
  obtain ⟨entry, hentry, rfl⟩ := List.mem_map.mp hkey
  obtain ⟨name, hname⟩ := Option.isSome_iff_exists.mp
    (List.lookup_isSome_iff.mpr ⟨entry, hentry, beq_self_eq_true _⟩ :
      (ctx.literals.lookup entry.1).isSome)
  obtain ⟨before, rest, hliterals, -⟩ := List.lookup_eq_some_iff.mp hname
  obtain ⟨constant, hconstant, heq⟩ :=
    List.mem_map.mp (hctx.constants name (by simp [hliterals]))
  have hvalue : (ctx.constants.lookup name).isSome = true :=
    List.lookup_isSome_iff.mpr ⟨constant, hconstant, beq_iff_eq.mpr heq.symm⟩
  rw [constant?, hname, Option.bind_some, Option.isSome_or, hvalue, Bool.or_true]

/-- What is found is no key of a constant. -/
theorem classify_unknown {operands : List Text} {source unquoted : Text} {names : List Text}
    {found found' : List (Nat × Text)} {ctx ctx' : Context}
    (h : classify Registry.standard operands found ctx = .ok (found', ctx'))
    (hctx : Sourced source unquoted names ctx)
    (hsource : ∀ entry ∈ found', contains entry.2 source = true)
    (hfound : ∀ entry ∈ found, entry.2 ∉ ctx.constants.map Prod.fst ∧
      entry.2 ∉ ctx.literals.map Prod.fst) :
    ∀ entry ∈ found', entry.2 ∉ ctx'.constants.map Prod.fst ∧
      entry.2 ∉ ctx'.literals.map Prod.fst := by
  induction operands generalizing found ctx with
  | nil =>
    obtain ⟨rfl, rfl⟩ := Prod.mk.inj (Except.ok.inj h)
    exact hfound
  | cons operand rest ih =>
    rw [classify] at h
    split at h
    · exact ih h hctx hfound
    · next hnew =>
      rw [Bool.or_eq_true, not_or, Bool.not_eq_true, Bool.not_eq_true] at hnew
      dsimp only at h
      have hasked : Sourced source unquoted names
          { ctx with cancelled := ctx.cancelled || (Literal.parse Registry.standard operand).2 } :=
        ⟨hctx.source_eq, hctx.unquoted_eq, hctx.fresh, hctx.names, hctx.constants⟩
      split at h
      · refine ih h (hasked.intern _ _) fun entry hentry => ?_
        obtain ⟨hconstant, hliteral⟩ := hfound entry hentry
        rw [intern]
        split
        · exact ⟨hconstant, hliteral⟩
        · -- a fresh name does not occur in the source
          refine ⟨List.not_mem_cons_of_ne_of_not_mem (fun heq => ?_) hconstant,
            List.not_mem_cons_of_ne_of_not_mem (fun heq => ?_) hliteral⟩
          · have hfresh := (contains_freshName { ctx with
              cancelled := ctx.cancelled || (Literal.parse Registry.standard operand).2 }).1
            have hkept := hsource entry ((classify_subset h).1 entry hentry)
            rw [heq, ← hctx.source_eq] at hkept
            cases hkept.symm.trans hfresh
          · have := List.any_eq_false.mp hnew.2 entry hentry
            exact this (beq_iff_eq.mpr heq)
      · split at h
        · split at h
          · refine ih h hasked (List.forall_mem_append.mpr ⟨hfound, List.forall_mem_singleton.mpr ?_⟩)
            have hknown := hnew.1
            have hnot : operand ∉ ctx.constants.map Prod.fst := fun hmem => by
              rw [isKnown_of_mem hmem] at hknown
              cases hknown
            refine ⟨hnot, fun hmem => ?_⟩
            have hlookup := isSome_constant?_of_mem hctx hmem
            rw [isKnown, hlookup] at hknown
            cases hknown
          · cases h
        · cases h

end Context

/-! ### Parameters are leaves -/

namespace TreeBuilder

open Source

variable {style : Precedence} {ctx tables : Context}

/-- Parameters are told apart from all else that a text is split into. -/
structure Visible (ctx : Context) : Prop where
  constants : ∀ key, (ctx.constant? key).isSome → HidesNoName key
  unknown : ∀ key, (ctx.constant? key).isSome → Context.parameterIndex? ctx.params key = none
  symbols : ∀ key, (ctx.symbol? key).isSome → ∀ p ∈ fields key,
    Context.parameterIndex? ctx.params p = none

theorem isIdentifier_of_parameterIndex? {p : Text} {id : Nat}
    (hparams : ∀ p ∈ ctx.params, isIdentifier p.name.toList = true)
    (hp : Context.parameterIndex? ctx.params p = some id) : isIdentifier p = true := by
  obtain ⟨⟨q, hq, rfl⟩, -⟩ := reads_parameter hp
  exact hparams q hq

/-- A parameter that is a field of a text is a leaf of the tree that its marked form is built to. -/
theorem Derives.mem_leaves (hvisible : Visible ctx) (hfree : Markless ctx tables) {p : Text} {id : Nat}
    (hid : Context.parameterIndex? ctx.params p = some id) {key : Text} {node : Node}
    (h : (common style ctx).Derives key node) : '(' ∉ key → ∀ text, Marked text key →
      Stripped text → p ∈ fields text → id ∈ node.leaves := by
  obtain ⟨hopening, hclosing, -⟩ := Compiler.delimiters_common style
  obtain ⟨hbinary, hunary⟩ := exists_token style ctx
  have hidentifier := isIdentifier_of_parameterIndex? hfree.params hid
  have hself {key text : Text} (hkey : '@' ∉ key) (htext : Marked text key) : text = key :=
    htext.unique (.of_not_mem hkey)
  have hquote {key text : Text} (htext : Marked text key) (hstripped : Stripped text) : '"' ∉ key :=
    fun hmem => hstripped.unquoted (htext.mem_of_mem (by decide) hmem)
  have hsymbol {key text : Text} (hkey : (ctx.symbol? key).isSome) (htext : Marked text key)
      (hp : p ∈ fields text) : False := by
    obtain rfl := hself (hfree.keys key hkey) htext
    cases (hvisible.symbols _ hkey p hp).symm.trans hid
  -- the operator between two texts has no names
  have hside {a op b : Text} (hne : op ≠ []) (hop : ∀ c ∈ op, isOperatorChar c = true)
      (hp : p ∈ fields (a ++ op ++ b)) : p ∈ fields a ∨ p ∈ fields b := by
    obtain ⟨us, hus, hempty⟩ := fields_append_of_forall hne hop a b
    rw [hus, List.mem_append, List.mem_append] at hp
    refine hp.imp_left fun hp => hp.resolve_right fun hp => ?_
    rw [hempty p hp] at hidentifier
    cases hidentifier
  induction h with
  | @constant key c hkey =>
    intro _ text htext hstripped hp
    have hconstant : (ctx.constant? key).isSome = true := Option.isSome_of_eq_some hkey
    obtain rfl := hself ((hfree.constants key hconstant).resolve_left (hquote htext hstripped)) htext
    obtain rfl := (hvisible.constants _ hconstant).resolve_left hstripped.unquoted
      hstripped.unhexed p hp hidentifier
    cases (hvisible.unknown p hconstant).symm.trans hid
  | @parameter key index hkey =>
    intro _ text htext _ hp
    have hkey : Context.parameterIndex? ctx.params key = some index := hkey
    have hidentifier := isIdentifier_of_parameterIndex? hfree.params hkey
    obtain rfl := hself (fun hmem =>
      absurd ((isIdentifierChar_of_isIdentifier hidentifier).2 _ hmem) (by decide)) htext
    rw [fields_of_forall (isOperatorChar_of_isIdentifier hidentifier), List.mem_singleton] at hp
    subst hp
    obtain rfl := Option.some.inj (hkey.symm.trans hid)
    exact List.mem_singleton_self _
  | symbol hkey =>
    exact fun _ _ htext _ hp => (hsymbol (Option.isSome_of_eq_some hkey) htext hp).elim
  | call hkey hcall =>
    intro hopen _ htext _ hp
    rcases hkey with rfl | ⟨symbol, hkey, -, -⟩
    · rw [(eq_of_splitCall? hopening hclosing hcall).1] at hopen
      simp at hopen
    · exact (hsymbol (Option.isSome_of_eq_some hkey) htext hp).elim
  | @binary key split left right node hsplit hleft hright hnode ihleft ihright =>
    intro hopen text htext hstripped hp
    obtain ⟨entry, hentry, hkey⟩ := exists_token_of_mem_candidates hsplit
    have hunquoted := hquote htext hstripped
    rw [hkey] at hopen hunquoted htext
    simp only [List.mem_append, not_or] at hopen hunquoted
    obtain ⟨a, op, b, rfl, ha, hb, hne, hchars⟩ := htext.exists_sides
      (hleft.exists_marked hfree hopen.1.1 hunquoted.1.1)
      (hright.exists_marked hfree hopen.2 hunquoted.2) (hbinary entry hentry)
    obtain ⟨hstrippedLeft, hstrippedRight⟩ :=
      hstripped.of_operator hne fun c hc => isIdentifierChar_of_isOperatorChar (hchars c hc)
    rw [hnode.leaves_fold]
    rcases hside hne hchars hp with hp | hp
    · exact List.mem_flatMap.mpr ⟨left, by simp, ihleft hopen.1.1 a ha hstrippedLeft hp⟩
    · exact List.mem_flatMap.mpr ⟨right, by simp, ihright hopen.2 b hb hstrippedRight hp⟩
  | @unary key rest token op operand node hop htoken _ hoperand hnode ih =>
    intro hopen text htext hstripped hp
    obtain rfl := after?_eq_some_iff.mp htoken
    have hunquoted := hquote htext hstripped
    simp only [List.mem_append, not_or] at hopen hunquoted
    have htext : Marked text ([] ++ token ++ rest) := htext
    obtain ⟨a, op, b, rfl, ha, hb, hne, hchars⟩ := htext.exists_sides ⟨[], .nil⟩
      (hoperand.exists_marked hfree hopen.2 hunquoted.2) (hunary _ hop)
    obtain rfl := ha.unique .nil
    obtain ⟨-, hstripped⟩ :=
      hstripped.of_operator hne fun c hc => isIdentifierChar_of_isOperatorChar (hchars c hc)
    rw [hnode.leaves_fold]
    rcases hside hne hchars hp with hp | hp
    · obtain rfl : p = [] := by simpa [fields] using hp
      cases hidentifier
    · exact List.mem_flatMap.mpr ⟨operand, by simp, ih hopen.2 b hb hstripped hp⟩

/-- The parameters of a tree are parameters of the tables that it is built from. -/
theorem Derives.reads_subset {key : Text} {node : Node} (h : (common style ctx).Derives key node) :
    node.reads (names ctx) ⊆ names ctx := by
  have hoperands {head : Head} {operands : List Node} {node : Node} {text : Text}
      (hnode : (common style ctx).Assembles head operands node)
      (h : ∀ operand ∈ operands, operand.reads (names ctx) ⊆ names ctx) :
      (node.fold (common style ctx).registry ((common style ctx).plain text)).reads (names ctx) ⊆
        names ctx := by
    rw [Node.reads, hnode.leaves_fold, List.map_flatMap]
    intro x hx
    obtain ⟨operand, hoperand, hx⟩ := List.mem_flatMap.mp hx
    exact h operand hoperand hx
  induction h with
  | constant => exact List.nil_subset _
  | parameter hkey =>
    obtain ⟨⟨p, hp, rfl⟩, hreads⟩ := @reads_parameter ctx _ _ hkey
    rw [hreads]
    exact List.cons_subset.mpr ⟨List.mem_map.mpr ⟨p, hp, rfl⟩, List.nil_subset _⟩
  | symbol _ _ _ ih => exact ih
  | call _ _ _ hlen _ hnode ih =>
    refine hoperands hnode fun operand hoperand => ?_
    obtain ⟨i, hi, rfl⟩ := List.getElem_of_mem hoperand
    exact ih _ (List.getElem_zip ▸ List.getElem_mem (by simpa [hlen] using hi))
  | binary _ _ _ hnode ihleft ihright =>
    exact hoperands hnode (List.forall_mem_cons.mpr ⟨ihleft, List.forall_mem_singleton.mpr ihright⟩)
  | unary _ _ _ _ hnode ih => exact hoperands hnode (List.forall_mem_singleton.mpr ih)

end TreeBuilder

/-! ### The tables of a source -/

theorem Context.callOperands_call {tokens : CallTokens} (hopening : tokens.opening = ['('])
    (hclosing : tokens.closing = [')']) (hseparator : tokens.separator = [',']) {name : Text}
    {operands : List Text} (hname : '(' ∉ name)
    (hoperands : ∀ x ∈ operands, x ≠ [] ∧ '(' ∉ x ∧ ',' ∉ x) :
    callOperands tokens (name ++ ['('] ++ [','].intercalate operands ++ [')']) = operands := by
  have hinner : ((cut? tokens.opening (name ++ ['('] ++ [','].intercalate operands ++ [')'])).bind
      fun p => before? tokens.closing p.2) = some ([','].intercalate operands) := by
    rw [hopening, hclosing, List.append_assoc, List.append_assoc, List.singleton_append,
      cut?_append_cons hname, Option.bind_some, before?_append_singleton]
  rw [callOperands_eq hinner, hseparator]
  cases operands with
  | nil => rfl
  | cons x operands =>
    rw [splitAll_intercalate (List.cons_ne_nil _ _) fun x hx => (hoperands x hx).2.2]
    exact List.filter_eq_self.mpr fun x hx => decide_eq_true (hoperands x hx).1

namespace Compiler

open Source

variable {style : Precedence} {source : Text} {ctx : Context}

namespace Staged

variable (S : Staged style source ctx)
include S

/-- An operand belongs to a symbol. -/
theorem exists_symbol_of_operand {x : Text}
    (hx : x ∈ (S.tables.markSymbols Markers.common).tableOperands (common style).tokens) :
    ∃ key s, S.tables.symbol? key = some s ∧
      x ∈ Context.symbolOperands (common style).tokens s.marked := by
  have hindexed : S.tables.Indexed := S.flattens.preserves (P := Context.Indexed)
    (fun _ text h => h.addSymbol text false) (fun _ key text h => h.setText key text)
    (S.symbols_called.1.setText _ _)
  obtain ⟨entry, hentry, hx⟩ := List.mem_flatMap.mp hx
  obtain ⟨⟨key, s⟩, hsymbol, rfl⟩ := List.mem_map.mp (List.mem_mergeSort.mp hentry)
  exact ⟨key, s, hindexed _ hsymbol, hx⟩

/-- The operands have no signs. -/
theorem sign_not_mem_operand (h : (common style).Resolves source ctx) {x : Text}
    (hx : x ∈ (S.tables.markSymbols Markers.common).tableOperands (common style).tokens) :
    ∀ c ∈ signs, c ∉ x := by
  obtain ⟨hopening, hclosing, hseparator⟩ := delimiters_common style
  obtain ⟨key, s, hs, hx⟩ := S.exists_symbol_of_operand hx
  have hkey : ctx.symbol? key = some s.marked := by rw [S.symbols, hs, Option.map_some]
  rw [Context.symbolOperands, Symbol.isCall_marked] at hx
  cases hcall : s.isCall with
  | false =>
    rw [hcall, if_neg Bool.false_ne_true] at hx
    exact fun c hc => not_mem_operandsFrom hc (List.mem_of_mem_filter hx)
  | true =>
    have hplain : S.tables.CallsPlain := by
      refine S.flattens.callsPlain S.leveled fun key s hs hcall => ?_
      rw [Context.symbol?_setText] at hs
      obtain ⟨s, hsymbol, rfl⟩ := Option.map_eq_some_iff.mp hs
      by_cases hmain : key = Context.mainName
      · obtain rfl := Option.some.inj ((S.symbols_called.2.2).symm.trans (hmain ▸ hsymbol))
        rw [if_pos hmain] at hcall
        cases hcall
      · rw [if_neg hmain] at hcall ⊢
        refine (S.takes.callsPlain hopening hclosing hseparator rfl S.cleared.laid
          fun key s hs hcall => ?_).1 key s hsymbol hcall
        rw [(S.symbol?_start hs).2] at hcall
        cases hcall
    obtain ⟨-, name, operands, htext, hname, hoperands⟩ :=
      (S.marks h).call hkey ((Symbol.isCall_marked s).trans hcall)
    rw [hcall, if_pos rfl, htext, Context.callOperands_call hopening hclosing hseparator hname
      hoperands] at hx
    rw [Symbol.marked_of_isCall hcall] at htext
    intro c hc hmem
    obtain ⟨u, v, huv⟩ := (infix_intercalate hx : x <:+: [','].intercalate operands)
    refine hplain key s hs hcall c hc ?_
    rw [htext, ← huv]
    simp [hmem]

/-- The names that are found are those of the parameters. -/
theorem exists_parameter {entry : Nat × Text} (hentry : entry ∈ S.found) :
    ∃ p ∈ ctx.params, p.name.toList = entry.2 := by
  refine ⟨⟨String.ofList entry.2, TypeMask.all⟩, ?_, String.toList_ofList ..⟩
  rw [S.resolved]
  exact List.mem_map.mpr ⟨entry, List.mem_mergeSort.mpr hentry, rfl⟩

/-- What is known of the names before the operands are sorted out. -/
theorem sourced : Context.Sourced source (Context.takeStrings source (Context.start source)).1
    ((Context.takeStrings source (Context.start source)).2.literals.map Prod.snd)
    (S.tables.markSymbols Markers.common) := by
  have hextracted := sourced_extractLiterals style source
  rw [S.extracted] at hextracted
  have hstart : Context.Sourced source (Context.takeStrings source (Context.start source)).1
      ((Context.takeStrings source (Context.start source)).2.literals.map Prod.snd) S.start := by
    refine ⟨hextracted.source_eq, hextracted.unquoted_eq, fun name hname => ?_, hextracted.names,
      hextracted.constants⟩
    refine hextracted.fresh name ?_
    simpa [Context.generatedNames, S.symbols_start] using hname
  have hcalled := S.takes.preserves (fun _ text isCall h => h.addSymbol text isCall) hstart
  exact (S.flattens.preserves (fun _ text h => h.addSymbol text false)
    (fun _ key text h => h.setText key text) (hcalled.setText _ _)).markSymbols _

/-- A parameter is no key of a constant. -/
theorem parameterIndex?_of_constant (h : (common style).Resolves source ctx)
    (hapart : QuotesApart (outside source)) {key : Text} (hkey : (ctx.constant? key).isSome) :
    Context.parameterIndex? ctx.params key = none := by
  refine List.findIdx?_eq_none_iff.mpr fun p hp => beq_false_of_ne fun hname => ?_
  obtain ⟨entry, hentry, hentryName⟩ : ∃ entry ∈ S.found, entry.2 = p.name.toList := by
    rw [S.resolved] at hp
    exact List.mem_map.mp (Context.mem_orderedParameters.mp hp).2
  have hunknown := Context.classify_unknown S.classify S.sourced (fun entry hentry => by
    obtain ⟨p, hp, hname⟩ := S.exists_parameter hentry
    exact hname ▸ h.contains_source_of_parameter hapart hp) (by simp) entry hentry
  rw [S.constant?_eq] at hkey
  have hmem := Context.mem_of_isSome_constant? hkey
  rw [← hname, ← hentryName] at hmem
  exact (List.mem_append.mp hmem).elim hunknown.1 hunknown.2

/-- In the tables of a source, parameters are told apart from all else. -/
theorem visible (h : (common style).Resolves source ctx) (hapart : QuotesApart (outside source))
    (hclosed : '"' ∉ tail source) : TreeBuilder.Visible ctx := by
  have hdistinct := h.distinct hapart
  have hname (n : Nat) : HidesNoName (Context.generatedName n) := .inr (isAtomic_generatedName n).field
  have hnone {key : Text} (hkey : ∀ p ∈ ctx.params, p.name.toList ≠ key) :
      Context.parameterIndex? ctx.params key = none :=
    List.findIdx?_eq_none_iff.mpr fun p hp => beq_false_of_ne (hkey p hp)
  refine ⟨fun key hkey => ?_, fun key => S.parameterIndex?_of_constant h hapart,
    fun key hkey p hp => ?_⟩
  · have hsorted : S.sorted.KnowsOnly HidesNoName :=
      S.knowsOnly_sorted hname
        (.inr (isAtomic_of_forall (by decide) (by simp [Context.mainName])).field)
        ((knowsOnly_extractLiterals style hclosed).mono fun key hkey => hkey.imp_right IsAtomic.field)
        fun x hx value hvalue => hidesNoName_literal hvalue (S.sign_not_mem_operand h hx)
    rw [S.constant?_eq] at hkey
    exact (List.mem_append.mp (Context.mem_of_isSome_constant? hkey)).elim
      (hsorted.constants key) (hsorted.literals key)
  · obtain ⟨s, hs⟩ := Option.isSome_iff_exists.mp hkey
    have hkeys : fields key = [key] := by
      rcases h.tidy.symbol_cases hs with rfl | ⟨n, -, rfl, -⟩
      · rfl
      · exact fields_of_forall fun c hc =>
          isOperatorChar_of_isIdentifierChar ((generatedName_word n).2 c hc)
    rw [hkeys, List.mem_singleton] at hp
    subst hp
    refine hnone fun q hq heq => ?_
    rw [← heq, (hdistinct.params q hq).2] at hs
    cases hs

end Staged

/-- Every parameter is a leaf of the tree. -/
theorem Resolves.mem_leaves (h : (common style).Resolves source ctx) (hseparated : Separated source)
    (hclosed : '"' ∉ tail source) (hmarks : '@' ∉ outside source) {node : Node}
    (hderives : (TreeBuilder.common style ctx).Derives Context.mainName node) {p : Parameter}
    (hp : p ∈ ctx.params) :
    ∃ id, Context.parameterIndex? ctx.params p.name.toList = some id ∧ id ∈ node.leaves := by
  obtain ⟨S⟩ := h.staged hseparated hclosed
  obtain ⟨hopening, hclosing, hseparator⟩ := delimiters_common style
  have hapart := quotesApart_of_withoutBlanks (quotesApart_of_laid hseparated.laid)
  have hvisible := S.visible h hapart hclosed
  have hfree := S.markless h hclosed hmarks
  obtain ⟨id, hid⟩ : ∃ id, Context.parameterIndex? ctx.params p.name.toList = some id := by
    refine Option.isSome_iff_exists.mp (List.findIdx?_isSome.trans ?_)
    exact List.any_eq_true.mpr ⟨p, hp, beq_self_eq_true _⟩
  refine ⟨id, hid, ?_⟩
  -- the parameter is an operand of a symbol, which is built
  obtain ⟨entry, hentry, hname⟩ : ∃ entry ∈ S.found, entry.2 = p.name.toList := by
    rw [S.resolved] at hp
    exact List.mem_map.mp (Context.mem_orderedParameters.mp hp).2
  have hoperand := ((Context.classify_subset S.classify).2 entry hentry).resolve_left
    List.not_mem_nil
  obtain ⟨key, s, hs, hx⟩ := S.exists_symbol_of_operand (hname ▸ hoperand)
  have hkey : ctx.symbol? key = some s.marked := by rw [S.symbols, hs, Option.map_some]
  have hholds := h.holds hseparated hclosed hderives hkey
  have hchars := isOperatorChar_of_isIdentifier (h.isIdentifier_of_parameter hp)
  rw [Context.symbolOperands] at hx
  cases hcall : s.isCall with
  | false =>
    rw [Symbol.isCall_marked, hcall, if_neg Bool.false_ne_true, Symbol.text_marked hcall] at hx
    obtain ⟨built, hbuilt, hleaves⟩ := hholds.text _ hkey ((Symbol.isCall_marked s).trans hcall)
    rw [Symbol.text_marked hcall] at hbuilt
    have hopen := ((S.marks h).level.flat key s hs hcall).resolve_left List.not_mem_nil
    have hmarked := marked_mark (hfree.texts key s hs).2
    exact hleaves (hbuilt.mem_leaves hvisible hfree hid (Context.not_mem_mark (by decide) hopen) s.text
      hmarked (S.stripped hclosed key s hs hcall)
      (hmarked.mem_fields (List.mem_of_mem_filter hx) hchars))
  | true =>
    obtain ⟨name, inner, f, hsplit, -, hargs⟩ :=
      hholds.call _ hkey ((Symbol.isCall_marked s).trans hcall)
    obtain ⟨-, name', operands, htext, hname', hoperands⟩ :=
      (S.marks h).call hkey ((Symbol.isCall_marked s).trans hcall)
    rw [Symbol.isCall_marked, hcall, if_pos rfl, htext,
      Context.callOperands_call hopening hclosing hseparator hname' hoperands] at hx
    rw [htext] at hsplit
    obtain ⟨-, harguments⟩ :=
      TreeBuilder.callArguments_eq hopening hclosing hseparator hname' hoperands hsplit
    obtain ⟨built, hbuilt, hleaves⟩ := hargs _ (harguments ▸ hx)
    obtain ⟨-, hword⟩ := isIdentifierChar_of_isIdentifier (h.isIdentifier_of_parameter hp)
    have hnot {c : Char} (hc : isIdentifierChar c = false) : c ∉ p.name.toList := fun hmem => by
      cases hc.symm.trans (hword c hmem)
    refine hleaves (hbuilt.mem_leaves hvisible hfree hid (hnot (by decide)) p.name.toList
      (.of_not_mem (hnot (by decide))) (.of_forall hword) ?_)
    rw [fields_of_forall hchars]
    exact List.mem_singleton_self _

/-- In a source whose operands stand apart, with `@` in its string literals only, the parameters of a
compiled tree are its parameter leaves, each once, in the order in which their names first occur as
whole words outside the string literals. If white space makes no names, the leaves from left to right
are among these words in their order, so this is the order in which the tree meets the parameters if
every occurrence of their names is an operand. -/
theorem parameters_first_use {source : Text} {cancelled : Bool} {root : Node} {params : List Parameter}
    (h : ((common style).compile source cancelled).outcome = .ok (root, params))
    (hseparated : Separated source) (hclosed : '"' ∉ tail source) (hmarks : '@' ∉ outside source) :
    let names := params.map fun p => p.name.toList
    names.Nodup ∧ (∀ x, x ∈ names ↔ x ∈ root.reads names) ∧
      names = ((words (outside source)).filter (· ∈ names)).eraseDups ∧
      (Spaced (outside source) names →
        (root.reads names).Sublist (words (outside source)) ∧
          ((∀ x ∈ names, (words (outside source)).count x = (root.reads names).count x) →
            names = (root.reads names).eraseDups)) := by
  intro names
  obtain ⟨ctx, hresolves, hbuild⟩ := exists_resolves h
  obtain ⟨-, found, hparams, hfound⟩ := hresolves.found
  obtain ⟨hnames, node, hderives, rfl, -⟩ := derives_of_buildTree hbuild
  have hapart := quotesApart_of_withoutBlanks (quotesApart_of_laid hseparated.laid)
  have hctx : names = TreeBuilder.names ctx := by
    have := congrArg (List.map String.toList) hnames
    simpa [names, TreeBuilder.names, Function.comp_def] using this
  have hread : (node.retable params).reads names = node.reads (TreeBuilder.names ctx) := by
    rw [Node.reads, Node.reads, (Restricts.retable params node).leaves_eq, hctx]
  rw [hread, hctx]
  have hmem {x : Text} : x ∈ TreeBuilder.names ctx ↔ ∃ p ∈ ctx.params, p.name.toList = x := List.mem_map
  have hword (x : Text) (hx : x ∈ TreeBuilder.names ctx) : x ∈ words (outside source) := by
    obtain ⟨p, hp, rfl⟩ := hmem.mp hx
    exact hresolves.mem_words_of_parameter hapart hp
  -- both orders are the order of the places in the text with names for the string literals
  have hordered : TreeBuilder.names ctx =
      ((words (outside source)).filter (· ∈ TreeBuilder.names ctx)).eraseDups := by
    let text := (Context.takeStrings source (Context.start source)).1
    have hunknown : ∀ name ∈ (Context.takeStrings source (Context.start source)).2.literals.map
        Prod.snd, decide (name ∈ TreeBuilder.names ctx) = false := fun name hname =>
      decide_eq_false fun hx => by
        obtain ⟨p, hp, rfl⟩ := hmem.mp hx
        exact (hresolves.parameter_word hp).2.2 hname
    have hfilter := filter_words_takeStrings hapart hunknown
    have hsorted : (TreeBuilder.names ctx).Pairwise (Context.Precedes text) := by
      rw [TreeBuilder.names, hparams]
      exact Context.pairwise_orderedParameters hfound.distinct hfound.word fun entry hentry =>
        (isIdentifierChar_of_isIdentifier (hfound.identifier entry hentry)).2
    refine Context.eq_of_pairwise_precedes hsorted ?_ fun x => ?_
    · rw [← hfilter]
      exact Context.pairwise_precedes_words fun x hx _ => isIdentifierChar_of_mem_words hx
    · rw [List.mem_eraseDups, List.mem_filter, decide_eq_true_eq]
      exact ⟨fun hx => ⟨hword x hx, hx⟩, And.right⟩
  have hleaf (x : Text) : x ∈ TreeBuilder.names ctx ↔ x ∈ node.reads (TreeBuilder.names ctx) := by
    refine ⟨fun hx => ?_, fun hx => hderives.reads_subset hx⟩
    obtain ⟨p, hp, rfl⟩ := hmem.mp hx
    obtain ⟨id, hid, hleaves⟩ := hresolves.mem_leaves hseparated hclosed hmarks hderives hp
    obtain ⟨-, hreads⟩ := TreeBuilder.reads_parameter hid
    rw [Node.reads, Node.leaves, List.map_singleton, List.singleton_inj] at hreads
    exact List.mem_map.mpr ⟨id, hleaves, hreads⟩
  have hnodup : (TreeBuilder.names ctx).Nodup := by
    rw [hordered]
    exact pairwise_eraseDups fun _ _ _ _ _ _ _ hne => hne.symm
  refine ⟨hnodup, hleaf, hordered, fun hspaced => ?_⟩
  have hsublist := hresolves.reads_sublist hseparated hclosed hmarks hspaced hderives
  refine ⟨hsublist, fun hcount => ?_⟩
  have hfilter : node.reads (TreeBuilder.names ctx) =
      (words (outside source)).filter (· ∈ TreeBuilder.names ctx) := by
    have hkept := hsublist.filter (· ∈ TreeBuilder.names ctx)
    rw [List.filter_eq_self.mpr fun x hx => decide_eq_true ((hleaf x).mpr hx)] at hkept
    refine hkept.eq_of_length (List.Perm.length_eq (List.perm_iff_count.mpr fun x => ?_))
    by_cases hx : x ∈ TreeBuilder.names ctx
    · have hkeep : decide (x ∈ TreeBuilder.names ctx) = true := decide_eq_true hx
      exact (hcount x hx).symm.trans
        (List.count_filter (p := fun x => decide (x ∈ TreeBuilder.names ctx)) hkeep).symm
    · have hnone : x ∉ (words (outside source)).filter (· ∈ TreeBuilder.names ctx) := fun hmem =>
        hx (of_decide_eq_true (List.mem_filter.mp hmem).2)
      rw [List.count_eq_zero_of_not_mem fun hmem => hx ((hleaf x).mpr hmem),
        List.count_eq_zero_of_not_mem hnone]
  rw [hfilter]
  exact hordered

/-! ### The name of a function as a parameter -/

/-- The tables of the text `max(b,max)`, with the call still in it. -/
def calledStart : Context :=
  { Context.start "max(b,max)".toList with
    symbols := [(Context.mainName, ⟨"max(b,max)".toList, false⟩)] }

/-- The tables of the text `max(b,max)`, before there are parameters. -/
def calledSymbols : Context :=
  { Context.start "max(b,max)".toList with
    symbols := [("item0001".toList, ⟨"max(b,max)".toList, true⟩),
      (Context.mainName, ⟨"item0001".toList, false⟩)]
    counter := 1 }

/-- The tables of the text `max(b,max)`. -/
def calledTables : Context :=
  { calledSymbols with params := [⟨"max", TypeMask.all⟩, ⟨"b", TypeMask.all⟩] }

theorem extractLiterals_called :
    (Context.start "max(b,max)".toList).extractLiterals (common .mathematical).definition
      (common .mathematical).registry =
        ("max(b,max)".toList, Context.start "max(b,max)".toList) := by
  have hnumbers : Extractor.scanNumber "max(b,max)".toList 0 = .exhausted := by
    have hnone : Extractor.findNumber? "max(b,max)".toList = none := by decide
    rw [Extractor.scanNumber, Extractor.splitAtOrAfter]
    dsimp only
    rw [hnone]
  exact extractLiterals_of_strings (Context.takeStrings_of_none rfl _) (by decide) (by decide) hnumbers

/-- Arguments without calls and operators stay as they are. -/
theorem extractArguments_plain {tokens : Context.CallTokens} {whole : Text} {bound : Nat}
    {args : List Text} (h : ∀ arg ∈ args, arg.length < bound) (ctx : Context)
    (hargs : ∀ arg ∈ args, arg ≠ [] ∧ findCall? tokens.opening arg = none ∧
      tokens.isPlain arg = true) :
    Context.extractArguments tokens whole bound args h ctx = .ok (args, ctx) := by
  induction args with
  | nil => rw [Context.extractArguments]
  | cons arg args ih =>
    obtain ⟨⟨hne, hfind, hplain⟩, hargs⟩ := List.forall_mem_cons.mp hargs
    rw [Context.extractArguments, Context.extractCallsFrom_done hfind]
    simp only [hne, hplain, if_true, if_false, ih _ hargs]

theorem extractCalls_called :
    calledStart.extractCalls (common .mathematical).tokens "max(b,max)".toList =
      .ok ("item0001".toList, (calledStart.addSymbol "max(b,max)".toList true).2) := by
  have hfind : findCall? (common .mathematical).tokens.opening "max(b,max)".toList =
      some ([], "max".toList, "b,max)".toList) := by decide
  have hclose : Text.matchClose? (common .mathematical).tokens.opening
      (common .mathematical).tokens.closing 0 0 "b,max)".toList = some ("b,max".toList, []) := by
    decide
  have hplain : ∀ arg ∈ (common .mathematical).tokens.arguments "b,max".toList, arg ≠ [] ∧
      findCall? (common .mathematical).tokens.opening arg = none ∧
        (common .mathematical).tokens.isPlain arg = true := by decide
  have harguments : (common .mathematical).tokens.call "max".toList
      ((common .mathematical).tokens.arguments "b,max".toList) = "max(b,max)".toList := by decide
  obtain ⟨hlt, heq⟩ := Context.extractCallsFrom_call "max(b,max)".toList calledStart hfind hclose
  rw [Context.extractCalls, heq, extractArguments_plain hlt calledStart hplain]
  dsimp only [ok_bind]
  rw [harguments, Context.extractCallsFrom_done (by decide)]
  rfl

theorem sortedSymbols_called : calledSymbols.sortedSymbols = calledSymbols.symbols.reverse := by
  rw [Context.sortedSymbols, calledSymbols]
  dsimp only
  rw [Context.mergeSort_pair, if_neg (by decide)]
  rfl

theorem flattenGroups_called : calledSymbols.flattenGroups ['('] [')'] = .ok calledSymbols := by
  have hmain : calledSymbols.symbol? Context.mainName = some ⟨"item0001".toList, false⟩ := by decide
  have htext : Context.flattenText ['('] [')'] "item0001".toList calledSymbols =
      .ok ("item0001".toList, calledSymbols) :=
    Context.flattenText_eq_self (List.mem_singleton_self '(') (List.mem_singleton_self ')')
      (by decide) (by decide) calledSymbols
  rw [Context.flattenGroups, sortedSymbols_called]
  change Context.flattenSymbols _ _ [Context.mainName] _ = _
  simp only [Context.flattenSymbols, hmain, htext]
  rfl

theorem resolves_called : (common .mathematical).Resolves "max(b,max)".toList calledTables := by
  rw [Resolves, extractLiterals_called, resolve, if_neg (by decide)]
  change (calledStart.extractCalls (common .mathematical).tokens "max(b,max)".toList >>= _) = _
  rw [extractCalls_called]
  change (Context.flattenGroups ['('] [')'] calledSymbols >>= _) = _
  rw [flattenGroups_called]
  change Context.populate _ _ calledSymbols = _
  rw [Context.populate]
  change (Context.classify _ (calledSymbols.sortedSymbols.flatMap _) [] calledSymbols >>= _) = _
  have hoperands : calledSymbols.symbols.reverse.flatMap
      (fun p => Context.symbolOperands (common .mathematical).tokens p.2) =
        ["item0001".toList, ['b'], "max".toList] := by decide
  have hb : firstWord? ['b'] calledSymbols.unquoted = some 4 := by decide
  have hmax : firstWord? "max".toList calledSymbols.unquoted = some 0 := by decide
  have hclassify : Context.classify Registry.standard ["item0001".toList, ['b'], "max".toList] []
      calledSymbols = .ok ([(4, ['b']), (0, "max".toList)], calledSymbols) := by
    rw [Context.classify_known (by decide),
      Context.classify_parameter (by decide) rfl (by decide) hb (by decide),
      Context.classify_parameter (by decide) (by decide) (by decide) hmax (by decide)]
    rfl
  have horder : Context.orderedParameters [(4, ['b']), (0, "max".toList)] =
      [⟨"max", TypeMask.all⟩, ⟨"b", TypeMask.all⟩] := by
    rw [Context.orderedParameters, Context.mergeSort_pair]
    rfl
  rw [sortedSymbols_called, hoperands, show (common .mathematical).registry = Registry.standard from rfl,
    hclassify]
  exact congrArg (fun params => Except.ok { calledSymbols with params }) horder

theorem buildTree_called : ∃ root params, (common .mathematical).buildTree calledTables =
    .ok (root, params) ∧ params.map Parameter.name = ["max", "b"] ∧
      root.reads ["max".toList, "b".toList] = ["b".toList, "max".toList] := by
  have h : ((common .mathematical).buildTree calledTables).toOption.any (fun built =>
      built.2.map Parameter.name == ["max", "b"] &&
        built.1.reads ["max".toList, "b".toList] == ["b".toList, "max".toList]) = true := by
    decide +kernel
  cases hbuild : (common .mathematical).buildTree calledTables with
  | error fault =>
    rw [hbuild] at h
    cases h
  | ok built =>
    rw [hbuild] at h
    obtain ⟨hnames, hreads⟩ := Bool.and_eq_true_iff.mp (h : (_ && _) = true)
    exact ⟨built.1, built.2, rfl, eq_of_beq hnames, eq_of_beq hreads⟩

/-- In the text `max(b,max)` the operand `b` stands before the operand `max`, but the name of the
function comes first. -/
theorem parameters_called : ∃ root params,
    ((common .mathematical).compile "max(b,max)".toList false).outcome = .ok (root, params) ∧
      params.map (fun p => p.name.toList) = ["max".toList, "b".toList] ∧
        root.reads (params.map fun p => p.name.toList) = ["b".toList, "max".toList] := by
  obtain ⟨root, params, hbuild, hnames, hreads⟩ := buildTree_called
  have hlist : params.map (fun p => p.name.toList) = ["max".toList, "b".toList] := by
    have := congrArg (List.map String.toList) hnames
    simpa [Function.comp_def] using this
  exact ⟨root, params, (outcome_compile rfl resolves_called).trans hbuild, hlist, hlist ▸ hreads⟩

/-- The operands of the text `max(b,max)` stand apart, and its parameters are its leaves, which stand
in their order in the source. -/
theorem parameters_first_use_call :
    Separated "max(b,max)".toList ∧ '"' ∉ tail "max(b,max)".toList ∧
      '@' ∉ outside "max(b,max)".toList ∧ ∃ root params,
        ((common .mathematical).compile "max(b,max)".toList false).outcome = .ok (root, params) ∧
          (∀ x, x ∈ params.map (fun p => p.name.toList) ↔
            x ∈ root.reads (params.map fun p => p.name.toList)) ∧
          (root.reads (params.map fun p => p.name.toList)).Sublist
            (words (outside "max(b,max)".toList)) := by
  have houtside : outside "max(b,max)".toList = "max(b,max)".toList := outside_of_none rfl
  have hseparated : Separated "max(b,max)".toList := by
    constructor <;> rw [houtside] <;> decide
  have hclosed : '"' ∉ tail "max(b,max)".toList := by
    rw [tail_of_none rfl]
    decide
  have hmarks : '@' ∉ outside "max(b,max)".toList := by
    rw [houtside]
    decide
  have hspaced (names : List Text) : Spaced (outside "max(b,max)".toList) names := by
    have hblank : withoutBlanks (outside "max(b,max)".toList) = outside "max(b,max)".toList := by
      rw [houtside]
      decide
    exact ⟨hblank.symm ▸ List.filter_sublist, fun n hn => hblank ▸ hn⟩
  obtain ⟨root, params, hbuild, -, -⟩ := buildTree_called
  have hcompile := (outcome_compile rfl resolves_called).trans hbuild
  obtain ⟨-, hleaves, -, hlast⟩ := parameters_first_use hcompile hseparated hclosed hmarks
  exact ⟨hseparated, hclosed, hmarks, root, params, hcompile, hleaves, (hlast (hspaced _)).1⟩

end Compiler

end Formula
