import Formula.Proofs.Source.Reached

/-!
# The parentheses of a recognized source

No stage looks at the parentheses of a source as a whole: calls are cut out at the parenthesis that
matches, arguments are split at separators outside parentheses, and the groups that are left are taken
out innermost first. Still these pieces can only be taken out of a text whose parentheses match, and
each of them has something between its parentheses, but for a call. So the parentheses of a recognized
source match, and those with nothing between them are calls of functions that take no arguments.

That such a call is one of the language is seen only when its symbol is built. This is sure to happen
as long as generated names have four digits: a longer one may be made up of a shorter one and a digit
that follows it in the source.

## Main definitions

* `Text.IsNested`: the parentheses of a text match.
* `Text.EmptyPairs`: what stands before parentheses that have nothing between them.

## Main results

* `Context.Takes.emptyPairs`: taking calls out.
* `Compiler.expression_parentheses`: the parentheses of a recognized source.
-/

namespace Formula

namespace Text

/-- The parentheses of a text match: nothing closes that is not open, and nothing is left open. -/
structure IsNested (text : Text) : Prop where
  front : ∀ before rest, text = before ++ rest → before.count ')' ≤ before.count '('
  total : text.count '(' = text.count ')'

theorem count_of_depthAfter? {depth depth' : Nat} {text : Text}
    (h : depthAfter? true depth text = some depth') :
    depth + text.count '(' = depth' + text.count ')' := by
  induction text generalizing depth with
  | nil =>
    obtain rfl := Option.some.inj h
    rfl
  | cons c text ih =>
    rw [depthAfter?] at h
    rw [List.count_cons, List.count_cons]
    split at h
    · next hopen =>
      subst hopen
      have := ih h
      simp only [beq_self_eq_true, if_true, show ('(' == ')') = false from rfl, Bool.false_eq_true,
        if_false]
      omega
    · next hopen =>
      split at h
      · next hclose =>
        subst hclose
        split at h
        · cases h
        · next hpos =>
          have := ih h
          simp only [beq_self_eq_true, if_true, show (')' == '(') = false from rfl,
            Bool.false_eq_true, if_false]
          omega
      · next hclose =>
        simpa [beq_false_of_ne hopen, beq_false_of_ne hclose] using ih (by simpa using h)

theorem isNested_of_depthAfter? {text : Text} (h : depthAfter? true 0 text = some 0) :
    IsNested text := by
  refine ⟨fun before rest htext => ?_, by simpa using count_of_depthAfter? h⟩
  rw [htext, depthAfter?_append] at h
  obtain ⟨depth, hbefore, -⟩ := Option.bind_eq_some_iff.mp h
  have := count_of_depthAfter? hbefore
  omega

theorem depthAfter?_withoutBlanks (depth : Nat) (text : Text) :
    depthAfter? true depth (withoutBlanks text) = depthAfter? true depth text := by
  induction text generalizing depth with
  | nil => rfl
  | cons c text ih =>
    by_cases hblank : isBlank c = true
    · have hopen : c ≠ '(' := by
        rintro rfl
        exact absurd hblank (by decide)
      have hclose : c ≠ ')' := by
        rintro rfl
        exact absurd hblank (by decide)
      have hdrop : withoutBlanks (c :: text) = withoutBlanks text := by simp [withoutBlanks, hblank]
      rw [hdrop, ih, depthAfter?, if_neg hopen, if_neg hclose, if_neg (by simp)]
    · have hkeep : withoutBlanks (c :: text) = c :: withoutBlanks text := by
        simp [withoutBlanks, hblank]
      rw [hkeep, depthAfter?, depthAfter?, ih, ih, ih]

/-- A text without parentheses changes nothing about the depth. -/
theorem depthAfter?_of_not_mem {text : Text} (hopen : '(' ∉ text) (hclose : ')' ∉ text)
    (depth : Nat) : depthAfter? true depth text = some depth := by
  induction text with
  | nil => rfl
  | cons c text ih =>
    rw [List.mem_cons, not_or] at hopen hclose
    rw [depthAfter?, if_neg (Ne.symm hopen.1), if_neg (Ne.symm hclose.1), if_neg (by simp),
      ih hopen.2 hclose.2]

/-! ### Parentheses with nothing between them -/

/-- The words before parentheses that have nothing between them. -/
def EmptyPairs (good : Text → Prop) (text : Text) : Prop :=
  ∀ before rest, text = before ++ '(' :: ')' :: rest → good (lastWord before).2

/-- No parentheses of a text have nothing between them. -/
abbrev NoPairs : Text → Prop :=
  EmptyPairs fun _ => False

namespace EmptyPairs

variable {good : Text → Prop} {u v text : Text}

theorem mono (h : EmptyPairs good text) {good' : Text → Prop}
    (hgood : ∀ word, good word → good' word) : EmptyPairs good' text :=
  fun before rest htext => hgood _ (h before rest htext)

theorem of_not_mem {c : Char} (hc : c = '(' ∨ c = ')') (h : c ∉ text) : EmptyPairs good text := by
  rintro before rest rfl
  exact absurd (by rcases hc with rfl | rfl <;> simp) h

theorem of_append (h : EmptyPairs good (u ++ v)) : EmptyPairs good u := by
  rintro before rest rfl
  exact h before (rest ++ v) (by simp)

/-- Parentheses stand together before a character or after it, or it is one of them. -/
theorem append_cons {c : Char} (hc : isWordChar c = false) (hu : EmptyPairs good u)
    (hv : EmptyPairs good v) (hopen : c = '(' → ∀ rest, v = ')' :: rest → good (lastWord u).2)
    (hclose : c = ')' → ∀ rest, u ≠ rest ++ ['(']) : EmptyPairs good (u ++ c :: v) := by
  intro before rest h
  rcases List.append_eq_append_iff.mp h with ⟨x, rfl, hx⟩ | ⟨x, rfl, hx⟩
  · rcases x with _ | ⟨d, x⟩
    · obtain ⟨rfl, hrest⟩ := List.cons.inj hx
      simpa using hopen rfl rest hrest
    · obtain ⟨rfl, hrest⟩ := List.cons.inj hx
      rw [List.append_cons, lastWord_append_left (.inl (by simpa using hc))]
      exact hv x rest hrest
  · rcases x with _ | ⟨d, _ | ⟨e, x⟩⟩
    · obtain ⟨rfl, hrest⟩ := List.cons.inj hx
      simpa using hopen rfl rest hrest.symm
    · obtain ⟨rfl, hrest⟩ := List.cons.inj hx
      exact absurd rfl (hclose (List.cons.inj hrest).1.symm before)
    · obtain ⟨rfl, htail⟩ := List.cons.inj hx
      obtain ⟨rfl, -⟩ := List.cons.inj htail
      exact hu before x rfl

/-- Around a part with parentheses that match, the parentheses are only together if it is empty. -/
theorem parenthesized {before inner after : Text} (hdepth : depthAfter? true 0 inner = some 0)
    (hbefore : EmptyPairs good before) (hinner : EmptyPairs good inner)
    (hafter : EmptyPairs good after) (hnil : inner = [] → good (lastWord before).2) :
    EmptyPairs good (before ++ '(' :: (inner ++ ')' :: after)) := by
  refine append_cons (by decide) hbefore
    (append_cons (by decide) hinner hafter (fun h => absurd h (by decide)) ?_)
    (fun _ rest hrest => ?_) (fun h => absurd h (by decide))
  · -- nothing is left open in the part
    rintro - rest rfl
    rw [depthAfter?_append] at hdepth
    obtain ⟨depth, -, hopen⟩ := Option.bind_eq_some_iff.mp hdepth
    cases hopen
  · -- nothing closes in the part that is not open
    cases inner with
    | nil => exact hnil rfl
    | cons c inner =>
      obtain rfl : c = ')' := (List.cons.inj hrest).1
      cases hdepth

theorem intercalate {parts : List Text} (h : ∀ part ∈ parts, EmptyPairs good part) :
    EmptyPairs good ([','].intercalate parts) := by
  induction parts with
  | nil => exact of_not_mem (.inl rfl) List.not_mem_nil
  | cons part parts ih =>
    obtain ⟨hpart, hparts⟩ := List.forall_mem_cons.mp h
    cases parts with
    | nil => simpa [List.intercalate] using hpart
    | cons next parts =>
      rw [List.intercalate_cons_cons, List.append_assoc, List.singleton_append]
      exact append_cons (by decide) hpart (ih hparts) (fun h => absurd h (by decide))
        (fun h => absurd h (by decide))

end EmptyPairs

theorem NoPairs.of_append_right {u v : Text} (h : NoPairs (u ++ v)) : NoPairs v := by
  rintro before rest rfl
  exact h (u ++ before) rest (by simp)

theorem NoPairs.append {u v : Text} (h : NoPairs u) (hv : ')' ∉ v) : NoPairs (u ++ v) := by
  intro before rest huv
  rw [List.append_cons] at huv
  rcases List.append_eq_append_iff.mp huv with ⟨x, -, rfl⟩ | ⟨x, rfl, hx⟩
  · exact absurd (by simp) hv
  · rcases x with _ | ⟨c, x⟩
    · obtain rfl : ')' :: rest = v := hx
      exact absurd (List.mem_cons_self ..) hv
    · obtain ⟨rfl, -⟩ := List.cons.inj hx
      exact h before x (by simp)

end Text

open Text

/-- A function with the name takes no arguments. -/
def TakesNothing (word : Text) : Prop :=
  (Function.lookup? (String.ofList word) 0).isSome = true

/-- The word at the end of a text ends with the word characters there. -/
theorem suffix_lastWord {w : Text} (hw : ∀ c ∈ w, isWordChar c = true) (text : Text) :
    w <:+ (lastWord (text ++ w)).2 := by
  have hrev : ∀ c ∈ w.reverse, isWordChar c = true := by simpa using hw
  refine ⟨(text.reverse.takeWhile isWordChar).reverse, ?_⟩
  rw [lastWord, List.reverse_append, List.takeWhile_append, List.takeWhile_eq_self_iff.mpr hrev,
    if_pos rfl, List.reverse_append, List.reverse_reverse]

/-- A name put in for something else is no part of the name of a function. -/
theorem Text.EmptyPairs.replace {literal before rest : Text} {n : Nat} (hne : literal ≠ [])
    (hopen : '(' ∉ literal) (hclose : ')' ∉ literal)
    (h : EmptyPairs TakesNothing (before ++ Context.generatedName n ++ rest)) :
    EmptyPairs TakesNothing (before ++ literal ++ rest) := by
  intro u v huv
  rw [List.append_assoc] at huv
  rcases List.append_eq_append_iff.mp huv with ⟨x, rfl, hx⟩ | ⟨x, rfl, hx⟩
  · obtain ⟨y, rfl, rfl⟩ := exists_of_append_cons hopen hx
    have hword := h (before ++ Context.generatedName n ++ y) v (by simp)
    by_cases hy : ∃ c ∈ y, isWordChar c = false
    · rw [lastWord_append_left (.inr hy)] at hword
      rwa [← List.append_assoc, lastWord_append_left (.inr hy)]
    · -- the name is part of the word, which names no function then
      simp only [not_exists, not_and, Bool.not_eq_false] at hy
      have hsuffix := suffix_lastWord (w := Context.generatedName n ++ y)
        (List.forall_mem_append.mpr ⟨fun c => Context.Sorted.isWordChar_of_mem_generatedName, hy⟩) before
      rw [← List.append_assoc] at hsuffix
      obtain ⟨f, hf⟩ := Option.isSome_iff_exists.mp hword
      have hname : contains (Context.generatedName n) (Context.generatedName n ++ y) = true :=
        contains_iff.mpr ⟨[], y, rfl⟩
      have hnone := contains_of_lookup? hf n
      rw [contains_mono hname hsuffix.isInfix] at hnone
      cases hnone
  · obtain ⟨c, literal, rfl⟩ := List.exists_cons_of_ne_nil hne
    simp only [List.mem_cons, not_or] at hopen hclose
    rcases x with _ | ⟨d, _ | ⟨e, x⟩⟩
    · exact absurd (List.cons.inj hx).1 hopen.1
    · exact absurd (List.cons.inj (List.cons.inj hx).2).1 hclose.1
    · obtain ⟨rfl, htail⟩ := List.cons.inj hx
      obtain ⟨rfl, -⟩ := List.cons.inj htail
      exact h u (x ++ Context.generatedName n ++ rest) (by simp)

namespace Context

/-! ### Groups -/

/-- A group gives way to a name: nothing else opens or closes in it. -/
theorem noPairs_group {text before tail inner rest name : Text}
    (hopen : cutLast? ['('] text = some (before, tail)) (hclose : cut? [')'] tail = some (inner, rest))
    (hne : inner ≠ []) (hname : '(' ∉ name ∧ ')' ∉ name)
    (h : NoPairs (before ++ name ++ rest) ∧
      ∀ depth, depthAfter? true depth (before ++ name ++ rest) = some depth) :
    NoPairs text ∧ ∀ depth, depthAfter? true depth text = some depth := by
  have hinner : '(' ∉ inner ∧ ')' ∉ inner := by
    refine ⟨fun hmem => not_mem_of_cutLast?.2 _ _ hopen ?_, not_mem_of_cut? hclose⟩
    rw [eq_append_of_cut? hclose]
    simp [hmem]
  have hdepth := depthAfter?_of_not_mem hinner.1 hinner.2
  rw [group_eq hopen hclose]
  obtain ⟨hpairs, hkept⟩ := h
  refine ⟨.parenthesized (hdepth 0) hpairs.of_append.of_append (.of_not_mem (.inl rfl) hinner.1)
    (NoPairs.of_append_right hpairs) hne, fun depth => ?_⟩
  have hskip := hkept depth
  simp only [List.append_assoc, depthAfter?_append, depthAfter?_of_not_mem hname.1 hname.2,
    Option.bind_some] at hskip
  simp only [depthAfter?_append, depthAfter?_group (hdepth 0), hskip]

/-- Groups are taken out of a text whose parentheses match and have something between them. -/
theorem Flattens.noPairs {text text' : Text} {ctx ctx' : Context}
    (h : Flattens ['('] [')'] text ctx text' ctx') :
    NoPairs text ∧ ∀ depth, depthAfter? true depth text = some depth := by
  induction h with
  | @done text ctx hopen hclose =>
    have hopen := not_mem_of_cutLast?.1 hopen
    refine ⟨.of_not_mem (.inl rfl) hopen, depthAfter?_of_not_mem hopen fun hmem => ?_⟩
    obtain ⟨u, v, rfl⟩ := List.append_of_mem hmem
    rw [contains_iff.mpr ⟨u, v, by simp⟩] at hclose
    cases hclose
  | @known text before tail inner rest text' ctx ctx' hopen hclose hne _ _ ih =>
    refine noPairs_group hopen hclose hne ⟨fun hmem => not_mem_of_cutLast?.2 _ _ hopen ?_,
      not_mem_of_cut? hclose⟩ ih
    rw [eq_append_of_cut? hclose]
    simp [hmem]
  | group hopen hclose hne _ _ ih =>
    exact noPairs_group hopen hclose hne (parentheses_not_mem_generatedName _) ih

/-- Groups are taken out of symbols whose parentheses match and have something between them. -/
theorem FlattensAll.noPairs {keys : List Text} {ctx ctx' : Context}
    (h : FlattensAll ['('] [')'] keys ctx ctx') :
    ∀ key ∈ keys, ∀ s, ctx.symbol? key = some s →
      NoPairs s.text ∧ ∀ depth, depthAfter? true depth s.text = some depth := by
  induction h with
  | nil => exact fun _ h => absurd h List.not_mem_nil
  | skip hkey _ ih =>
    refine List.forall_mem_cons.mpr ⟨fun s hs => ?_, ih⟩
    rw [hkey] at hs
    cases hs
  | @symbol key text keys symbol ctx ctx₁ ctx' hkey hflat _ ih =>
    intro k hk s hs
    by_cases heq : k = key
    · obtain rfl : symbol = s := Option.some.inj (hkey.symm.trans (heq ▸ hs))
      exact hflat.noPairs
    · have hkept : ctx₁.symbol? k = some s :=
        hflat.preserves (P := fun ctx => ctx.symbol? k = some s)
          (fun ctx text h => symbol?_addSymbol h text false) hs
      exact ih k ((List.mem_cons.mp hk).resolve_left heq) s
        (by rw [symbol?_setText, hkept, Option.map_some, if_neg heq])

/-! ### Calls -/

/-- What is reached fits, and has no parentheses with nothing between them if it is no call. -/
def Sealed (t : TreeBuilder) (key : Text) (s : Symbol) : Prop :=
  t.Reaches key → t.Fits s ∧ (s.isCall = false → NoPairs s.text)

section Takes

variable {tokens : CallTokens} (hopening : tokens.opening = ['(']) (hclosing : tokens.closing = [')'])
  (hseparator : tokens.separator = [','])
include hopening

/-- The operands of calls have no groups. -/
theorem Takes.open_not_mem {job : Job} {results : List Text} {ctx ctx' : Context}
    (h : Takes tokens job ctx results ctx') {args : List Text} (hjob : job = .arguments args) :
    ∀ x ∈ results, '(' ∉ x := by
  induction h generalizing args with
  | done | call => cases hjob
  | nil => simp
  | @plain arg text args' operands ctx ctx₁ ctx' _ _ hplain _ _ ih =>
    refine List.forall_mem_cons.mpr ⟨fun hmem => ?_, ih rfl⟩
    rw [CallTokens.isPlain, Bool.and_eq_true, Bool.not_eq_true', Bool.not_eq_true', hopening] at hplain
    obtain ⟨u, v, rfl⟩ := List.append_of_mem hmem
    rw [contains_iff.mpr ⟨u, v, by simp⟩] at hplain
    cases hplain.2
  | named _ _ _ _ _ ih =>
    exact List.forall_mem_cons.mpr ⟨(parentheses_not_mem_generatedName _).1, ih rfl⟩

include hclosing hseparator

/-- Calls are taken out of a text in which parentheses with nothing between them stand behind the name
of a function that takes no arguments, if all that is left is built. -/
theorem Takes.emptyPairs {t : TreeBuilder} {job : Job} {results : List Text} {ctx ctx' : Context}
    (h : Takes tokens job ctx results ctx') {current : Text}
    (hcurrent : (ctx.symbol? current).isSome = true) (hsealed : ForallBut (Sealed t) current ctx') :
    ForallBut (Sealed t) current ctx ∧ ((∀ x ∈ results, t.Supplied x ∧ NoPairs x) →
      ∀ x ∈ job.texts, EmptyPairs TakesNothing x) := by
  have hkept {job : Job} {results : List Text} {ctx ctx' : Context}
      (h : Takes tokens job ctx results ctx') (hcurrent : (ctx.symbol? current).isSome = true) :
      (ctx'.symbol? current).isSome = true :=
    h.preserves (P := fun ctx => (ctx.symbol? current).isSome = true)
      (fun ctx text isCall hctx => isSome_symbol?_addSymbol hctx text isCall) hcurrent
  induction h with
  | done => exact ⟨hsealed, fun hresults x hx => (hresults x hx).2.mono fun _ => False.elim⟩
  | nil => exact ⟨hsealed, fun _ _ hx => absurd hx List.not_mem_nil⟩
  | @call rest head name tail inner after text operands ctx ctx₁ ctx' hfind hclose hargs _ ihargs
      ihrest =>
    have hflat := hargs.open_not_mem hopening rfl
    rw [hopening] at hfind
    rw [hopening, hclosing] at hclose
    obtain ⟨rfl, hname, hword, -⟩ := exists_of_findCall? hfind
    obtain ⟨rfl, hdepth⟩ := depthAfter?_of_matchClose? hclose
    have hchars := (isWordChar_of_isFunctionName hname).2
    have hcurrent₁ := hkept hargs hcurrent
    obtain ⟨hsealed, hrest⟩ := ihrest (isSome_symbol?_addSymbol hcurrent₁ _ _) hsealed
    obtain ⟨hsealed, hcall⟩ := hsealed.of_addSymbol hcurrent₁
    obtain ⟨hsealed, harguments⟩ := ihargs hcurrent hsealed
    refine ⟨hsealed, fun hresults => List.forall_mem_singleton.mpr ?_⟩
    obtain ⟨hsupplied, hpairs⟩ := hresults _ (List.mem_singleton_self _)
    obtain ⟨hfits, -⟩ := hcall hsupplied.reaches
    rw [call_eq hopening hclosing hseparator] at hfits
    have hclosed : ')' ∉ name := fun hmem => absurd (hchars _ hmem) (by decide)
    have hopen : '(' ∉ name := fun hmem => absurd (hchars _ hmem) (by decide)
    refine .parenthesized hdepth ((NoPairs.append hpairs.of_append.of_append hclosed).mono
      fun _ => False.elim) ?_ ?_ ?_
    · rw [← intercalate_arguments hopening hclosing hseparator inner]
      refine .intercalate (harguments fun x hx => ⟨hfits.supplied.of_part ?_,
        .of_not_mem (.inl rfl) (hflat x hx)⟩)
      have hargument : x <:+: [','].intercalate operands := infix_intercalate hx
      exact hargument.trans ⟨name ++ ['('], [')'], by simp⟩
    · exact hrest (List.forall_mem_singleton.mpr ⟨hsupplied.parts.2.2,
        NoPairs.of_append_right hpairs⟩) _ (List.mem_singleton_self _)
    · rintro rfl
      rw [hword]
      rw [show tokens.arguments [] = [] from rfl] at hargs
      cases hargs
      exact hfits.call rfl name hopen rfl
  | plain harg _ _ _ iharg ihrest =>
    obtain ⟨hsealed, hrest⟩ := ihrest (hkept harg hcurrent) hsealed
    obtain ⟨hsealed, hfirst⟩ := iharg hcurrent hsealed
    refine ⟨hsealed, fun hresults => ?_⟩
    obtain ⟨htext, hoperands⟩ := List.forall_mem_cons.mp hresults
    exact List.forall_mem_cons.mpr ⟨hfirst (List.forall_mem_singleton.mpr htext) _
      (List.mem_singleton_self _), hrest hoperands⟩
  | named harg _ _ _ iharg ihrest =>
    have hcurrent₁ := hkept harg hcurrent
    obtain ⟨hsealed, hrest⟩ := ihrest (isSome_symbol?_addSymbol hcurrent₁ _ _) hsealed
    obtain ⟨hsealed, htext⟩ := hsealed.of_addSymbol hcurrent₁
    obtain ⟨hsealed, hfirst⟩ := iharg hcurrent hsealed
    refine ⟨hsealed, fun hresults => ?_⟩
    obtain ⟨⟨hname, -⟩, hoperands⟩ := List.forall_mem_cons.mp hresults
    obtain ⟨hfits, hpairs⟩ := htext (hname _ (contains_iff.mpr ⟨[], [], (List.append_nil _).symm⟩))
    exact List.forall_mem_cons.mpr ⟨hfirst (List.forall_mem_singleton.mpr
      ⟨hfits.supplied, hpairs rfl⟩) _ (List.mem_singleton_self _), hrest hoperands⟩

end Takes

/-- A symbol fits if it does with its operators marked. -/
theorem fits_of_markSymbols {t : TreeBuilder} {s : Symbol}
    (h : t.Fits (if s.isCall then s else { s with text := Markers.common.mark s.text })) : t.Fits s := by
  split at h
  · exact h
  · next hplain =>
    have hmarked := h.supplied
    dsimp only at hmarked
    exact ⟨hmarked.of_mark, fun hcall => absurd hcall hplain⟩

end Context

/-! ### Literals -/

namespace Source

/-- What is known of the parentheses of a text holds before some literals gave way to names. -/
structure Recovers (initial text : Text) (ctx : Context) : Prop where
  depth : depthAfter? true 0 initial = depthAfter? true 0 text
  pairs : EmptyPairs TakesNothing text → EmptyPairs TakesNothing initial
  names : ∀ name ∈ ctx.literals.map Prod.snd, ∃ n, name = Context.generatedName n

/-- A literal without parentheses gives way to its name. -/
theorem Recovers.replace {initial before literal rest : Text} {ctx : Context}
    (h : Recovers initial (before ++ literal ++ rest) ctx) (hne : literal ≠ [])
    (hopen : '(' ∉ literal) (hclose : ')' ∉ literal) (value : Value) :
    Recovers initial (before ++ (ctx.intern value literal).1 ++ rest) (ctx.intern value literal).2 := by
  have hnames := names_intern h.names value literal
  obtain ⟨n, hn⟩ := hnames _ (Context.mem_literals_intern_self ctx value literal)
  obtain ⟨hopen', hclose'⟩ := Context.parentheses_not_mem_generatedName n
  rw [hn]
  refine ⟨h.depth.trans ?_, fun hpairs => h.pairs (hpairs.replace hne hopen hclose), hnames⟩
  simp only [depthAfter?_append, depthAfter?_of_not_mem hopen hclose,
    depthAfter?_of_not_mem hopen' hclose']

/-- A name in place of a quotation mark changes nothing about parentheses. -/
theorem Fills.recovers {isName : Text → Prop} {out filled : Text} (h : Fills isName out filled)
    (hnames : ∀ name, isName name → ∃ n, name = Context.generatedName n) :
    (∀ depth, depthAfter? true depth out = depthAfter? true depth filled) ∧
      ∀ before, EmptyPairs TakesNothing (before ++ filled) → EmptyPairs TakesNothing (before ++ out) := by
  induction h with
  | refl => exact ⟨fun _ => rfl, fun _ => id⟩
  | @name before name out filled hname _ ih =>
    obtain ⟨n, rfl⟩ := hnames name hname
    obtain ⟨hdepth, hpairs⟩ := ih
    obtain ⟨hopen, hclose⟩ := Context.parentheses_not_mem_generatedName n
    have hquote : '(' ∉ ['"'] ∧ ')' ∉ ['"'] := by decide
    constructor
    · intro depth
      rw [List.append_cons]
      simp only [depthAfter?_append, depthAfter?_of_not_mem hopen hclose,
        depthAfter?_of_not_mem hquote.1 hquote.2, hdepth]
    · intro front h
      rw [← List.append_assoc, ← List.append_assoc] at h
      have hreplaced := (hpairs _ h).replace (List.cons_ne_nil _ _) hquote.1 hquote.2
      simpa using hreplaced

/-- The literals of a source are taken out of it. -/
theorem recovers_extractLiterals (style : Precedence) (source : Text) :
    Recovers (Text.withoutBlanks (outside source))
      ((Context.start source).extractLiterals { precedence := style } Registry.standard).1
      ((Context.start source).extractLiterals { precedence := style } Registry.standard).2 := by
  have hnames : ∀ name ∈ (Context.takeStrings source (Context.start source)).2.literals.map Prod.snd,
      ∃ n, name = Context.generatedName n :=
    Context.takeStrings_preserves (P := fun ctx => ∀ name ∈ ctx.literals.map Prod.snd,
      ∃ n, name = Context.generatedName n) (fun _ value text h => names_intern h value text) source
      (by simp)
  rw [Context.extractLiterals_common]
  refine Context.pass_induct (fun _ offset before literal rest value ctx hfound h => ?_) _ _ _ ?_
  · obtain ⟨hchars, c, hc, -⟩ :=
      mem_numberChars_of_takeNumber? (Extractor.of_scanNumber_append hfound).1
    exact h.replace (List.ne_nil_of_mem hc) (fun hmem => absurd (hchars _ hmem) (by decide))
      (fun hmem => absurd (hchars _ hmem) (by decide)) value
  refine Context.pass_induct (fun _ offset before literal rest value ctx hfound h => ?_) _ _ _ ?_
  · obtain ⟨inner, rfl, hsymbol⟩ := Extractor.of_scanSymbol_append hfound
    have hchars : ∀ c ∈ '[' :: (inner ++ [']']), c ≠ '(' ∧ c ≠ ')' :=
      forall_mem_bracketed hsymbol (by decide) (by decide)
        (fun c hblank => ⟨by rintro rfl; exact absurd hblank (by decide),
          by rintro rfl; exact absurd hblank (by decide)⟩)
        fun c hletter => ⟨by rintro rfl; exact absurd hletter (by decide),
          by rintro rfl; exact absurd hletter (by decide)⟩
    exact h.replace (List.cons_ne_nil _ _) (fun hmem => (hchars _ hmem).1 rfl)
      (fun hmem => (hchars _ hmem).2 rfl) value
  have hfills := (Context.fills_takeStrings source (Context.start source)).withoutBlanks
    fun name hname c hc => by
      obtain ⟨n, rfl⟩ := hnames name hname
      exact Context.Sorted.isWordChar_of_mem_generatedName hc
  obtain ⟨hdepth, hpairs⟩ := hfills.recovers hnames
  exact ⟨hdepth 0, hpairs [], hnames⟩

end Source

namespace Compiler

open Source

/-! ### Recognized sources -/

/-- The parentheses of a source without its literals. -/
theorem Resolves.parentheses {style : Precedence} {source : Text} {ctx : Context}
    (h : (common style).Resolves source ctx) :
    depthAfter? true 0 ((Context.start source).extractLiterals (common style).definition
        (common style).registry).1 = some 0 ∧
      ∀ root params, (common style).buildTree ctx = .ok (root, params) → ctx.counter < 10000 →
        EmptyPairs TakesNothing ((Context.start source).extractLiterals (common style).definition
          (common style).registry).1 := by
  have hresolves := h
  have hsymbols := Context.symbols_extractLiterals style source
  rw [Resolves] at h
  generalize (Context.start source).extractLiterals (common style).definition
    (common style).registry = literals at h hsymbols ⊢
  obtain ⟨text, start⟩ := literals
  obtain ⟨-, text₁, ctx₁, ctx₂, sorted, htakes, hgroups, hclassify, hctx⟩ := exists_stages h
  obtain ⟨hopening, hclosing, hseparator⟩ := delimiters_common style
  rw [hopening, hclosing] at hgroups
  dsimp only at hsymbols htakes ⊢
  obtain ⟨hindexed₁, hmain₁⟩ : ctx₁.Indexed ∧ ctx₁.symbol? Context.mainName = some ⟨text, false⟩ :=
    htakes.preserves (P := fun ctx => ctx.Indexed ∧
        ctx.symbol? Context.mainName = some ⟨text, false⟩)
      (fun ctx x isCall h => ⟨h.1.addSymbol x isCall, Context.symbol?_addSymbol h.2 x isCall⟩)
      ⟨by rw [hsymbols]; exact List.forall_mem_singleton.mpr rfl, rfl⟩
  have hindexed := hindexed₁.setText Context.mainName text₁
  have hmain : (ctx₁.setText Context.mainName text₁).symbol? Context.mainName =
      some ⟨text₁, false⟩ := by
    rw [Context.symbol?_setText, hmain₁]
    rfl
  have hpairs {key : Text} {s : Symbol} (hs : (ctx₁.setText Context.mainName text₁).symbol? key = some s)
      (hplain : s.isCall = false) :=
    hgroups.noPairs key ((hindexed.mem_plainKeys hs).mpr hplain) s hs
  constructor
  · obtain ⟨_, heq, hdepth⟩ := htakes.depth_eq hopening hclosing rfl true
    obtain rfl := List.singleton_inj.mp heq
    exact (hdepth 0).symm.trans ((hpairs hmain rfl).2 0)
  · intro root params hbuild hcounter
    have hapart := hresolves.apart hcounter
    have hsuits : ∀ key s, ctx₂.symbol? key = some s →
        Context.Suits (TreeBuilder.common style ctx) key s := by
      intro key s hs hreached
      refine Context.fits_of_markSymbols ((hreached _ ?_).fits hapart)
      change ctx.symbols.lookup key = _
      rw [hctx]
      change sorted.2.symbols.lookup key = _
      rw [Context.symbols_classify hclassify]
      change (ctx₂.markSymbols Markers.common).symbol? key = _
      rw [Context.symbol?_markSymbols, hs, Option.map_some]
    have hsealed : ∀ key s, (ctx₁.setText Context.mainName text₁).symbol? key = some s →
        Context.Sealed (TreeBuilder.common style ctx) key s := fun key s hs hreached =>
      ⟨hgroups.suits (fun k hk s hs => (hindexed.mem_plainKeys hs).mp hk) hsuits key s hs hreached,
        fun hplain => (hpairs hs hplain).1⟩
    have hothers : Context.ForallBut (Context.Sealed (TreeBuilder.common style ctx))
        Context.mainName ctx₁ := fun key hkey s hs => hsealed key s (by
      rw [Context.symbol?_setText, hs, Option.map_some, if_neg hkey])
    obtain ⟨hfits, hnopairs⟩ := hsealed _ _ hmain (hresolves.reaches_mainName hbuild)
    exact (htakes.emptyPairs hopening hclosing hseparator rfl hothers).2
      (List.forall_mem_singleton.mpr ⟨hfits.supplied, hnopairs rfl⟩) _ (List.mem_singleton_self _)

/-- The parentheses of a recognized source match outside its string literals. As long as the names that
were generated have four digits, those with nothing but blanks between them belong to a call of a
function that takes no arguments. -/
theorem expression_parentheses (style : Precedence) {source : String}
    (hrecognized : ((common style).expression source).isRecognized = true) :
    IsNested (outside source.toList) ∧
      ∃ ctx, (common style).Resolves source.toList ctx ∧ (ctx.counter < 10000 →
        ∀ before blanks rest, outside source.toList = before ++ '(' :: (blanks ++ ')' :: rest) →
          (∀ c ∈ blanks, isBlank c = true) →
            TakesNothing (lastWord (Text.withoutBlanks before)).2) := by
  rw [expression] at hrecognized
  cases houtcome : ((common style).compile source.toList false).outcome with
  | error fault =>
    rw [houtcome] at hrecognized
    cases hrecognized
  | ok result =>
    obtain ⟨ctx, hresolves, hbuild⟩ := exists_resolves houtcome
    obtain ⟨hdepth, hpairs⟩ := hresolves.parentheses
    have hrecovers := recovers_extractLiterals style source.toList
    have hnested := hrecovers.depth.trans hdepth
    rw [depthAfter?_withoutBlanks] at hnested
    refine ⟨isNested_of_depthAfter? hnested, ctx, hresolves,
      fun hcounter before blanks rest houtside hblanks => ?_⟩
    refine hrecovers.pairs (hpairs _ _ hbuild hcounter) (Text.withoutBlanks before)
      (Text.withoutBlanks rest) ?_
    have hnone : Text.withoutBlanks blanks = [] := by
      simpa [Text.withoutBlanks] using hblanks
    have hopen : isBlank '(' = false := by decide
    have hclose : isBlank ')' = false := by decide
    have htext : Text.withoutBlanks (before ++ '(' :: (blanks ++ ')' :: rest)) =
        Text.withoutBlanks before ++ '(' :: (Text.withoutBlanks blanks ++
          ')' :: Text.withoutBlanks rest) := by
      simp [Text.withoutBlanks, hopen, hclose]
    rw [houtside, htext, hnone, List.nil_append]

/-- The tables of the text `random()`, with the call still in it. -/
def drawStart : Context :=
  { Context.start "random()".toList with
    symbols := [(Context.mainName, ⟨"random()".toList, false⟩)] }

/-- The tables of the text `random()`. -/
def drawTables : Context :=
  { Context.start "random()".toList with
    symbols := [("item0001".toList, ⟨"random()".toList, true⟩),
      (Context.mainName, ⟨"item0001".toList, false⟩)]
    counter := 1 }

theorem extractCalls_draw :
    drawStart.extractCalls (common .mathematical).tokens "random()".toList =
      .ok ("item0001".toList, (drawStart.addSymbol "random()".toList true).2) := by
  have hfind : findCall? (common .mathematical).tokens.opening "random()".toList =
      some ([], "random".toList, [')']) := by decide
  have hclose : Text.matchClose? (common .mathematical).tokens.opening
      (common .mathematical).tokens.closing 0 0 [')'] = some ([], []) := by decide
  obtain ⟨hlt, heq⟩ := Context.extractCallsFrom_call "random()".toList drawStart hfind hclose
  rw [Context.extractCalls, heq]
  have harguments : (common .mathematical).tokens.arguments [] = [] := by decide
  simp only [harguments, Context.extractArguments]
  dsimp only [ok_bind]
  rw [Context.extractCallsFrom_done (by decide)]
  rfl

theorem sortedSymbols_draw : drawTables.sortedSymbols = drawTables.symbols.reverse := by
  rw [Context.sortedSymbols, drawTables]
  dsimp only
  rw [Context.mergeSort_pair, if_neg (by decide)]
  rfl

theorem extractLiterals_draw :
    (Context.start "random()".toList).extractLiterals (common .mathematical).definition
      (common .mathematical).registry = ("random()".toList, Context.start "random()".toList) := by
  have hnumbers : Extractor.scanNumber "random()".toList 0 = .exhausted := by
    have hnone : Extractor.findNumber? "random()".toList = none := by decide
    rw [Extractor.scanNumber, Extractor.splitAtOrAfter]
    dsimp only
    rw [hnone]
  exact extractLiterals_of_strings (Context.takeStrings_of_none rfl _) (by decide) (by decide) hnumbers

theorem flattenGroups_draw : drawTables.flattenGroups ['('] [')'] = .ok drawTables := by
  have hmain : drawTables.symbol? Context.mainName = some ⟨"item0001".toList, false⟩ := by decide
  have htext : Context.flattenText ['('] [')'] "item0001".toList drawTables =
      .ok ("item0001".toList, drawTables) :=
    Context.flattenText_eq_self (List.mem_singleton_self '(') (List.mem_singleton_self ')')
      (by decide) (by decide) drawTables
  rw [Context.flattenGroups, sortedSymbols_draw]
  change Context.flattenSymbols _ _ [Context.mainName] _ = _
  simp only [Context.flattenSymbols, hmain, htext]
  rfl

theorem resolves_draw : (common .mathematical).Resolves "random()".toList drawTables := by
  rw [Resolves, extractLiterals_draw, resolve, if_neg (by decide)]
  change (drawStart.extractCalls (common .mathematical).tokens "random()".toList >>= _) = _
  rw [extractCalls_draw]
  change (Context.flattenGroups ['('] [')'] drawTables >>= _) = _
  rw [flattenGroups_draw]
  change Context.populate _ _ drawTables = _
  rw [Context.populate]
  change (Context.classify _ (drawTables.sortedSymbols.flatMap _) [] drawTables >>= _) = _
  have hoperands : drawTables.symbols.reverse.flatMap
      (fun p => Context.symbolOperands (common .mathematical).tokens p.2) = ["item0001".toList] := by
    decide
  rw [sortedSymbols_draw, hoperands, Context.classify_known (by decide)]
  change Except.ok { drawTables with params := Context.orderedParameters [] } = _
  rw [Context.orderedParameters, List.mergeSort_nil]
  rfl

theorem buildTree_draw :
    ∃ root params, (common .mathematical).buildTree drawTables = .ok (root, params) := by
  have h : ((common .mathematical).buildTree drawTables).toOption.isSome = true := by decide +kernel
  cases hbuild : (common .mathematical).buildTree drawTables with
  | error fault =>
    rw [hbuild] at h
    cases h
  | ok result => exact ⟨result.1, result.2, rfl⟩

/-- The text `random()` is a call of a function that takes no arguments. -/
theorem expression_parentheses_draw :
    ((common .mathematical).expression "random()").isRecognized = true ∧
      IsNested (outside "random()".toList) ∧
      ∃ ctx, (common .mathematical).Resolves "random()".toList ctx ∧ (ctx.counter < 10000 →
        ∀ before blanks rest,
          outside "random()".toList = before ++ '(' :: (blanks ++ ')' :: rest) →
          (∀ c ∈ blanks, isBlank c = true) →
            TakesNothing (lastWord (Text.withoutBlanks before)).2) := by
  obtain ⟨root, params, hbuild⟩ := buildTree_draw
  have hrecognized : ((common .mathematical).expression "random()").isRecognized = true := by
    rw [expression, outcome_compile rfl resolves_draw, hbuild]
    rfl
  exact ⟨hrecognized, expression_parentheses .mathematical hrecognized⟩

end Compiler

end Formula
