import Mathlib.Data.Nat.Digits.Defs
import Formula.Proofs.Source.Alphabet

/-!
# Generated names and the texts around them

A generated name is not separated from what stands beside it, so it may be glued to characters of the
source. What is glued together then holds the name, and it may hold another one only where one name is
the beginning of another: where some have four digits and some have more. As long as all names have
four digits, a name stands in a text only where it was put.

## Main definitions

* `Text.Severs`: a token that no occurrence of a name reaches into.
* `Context.Tidy`: no name stands for two things, and what is known holds no name but itself.

## Main results

* `Context.contains_generatedName_append`: names of four digits do not run into each other.
* `Compiler.Resolves.tidy`: the tables of a compilation are tidy.
* `Compiler.Resolves.contains_of_parameter`: a name of a part of the text is in no parameter.
-/

namespace Formula

/-! ### Occurrences -/

namespace Text

/-- A character that a text does not have stands behind it. -/
theorem exists_of_append_cons {c : Char} {s b w v : Text} (hs : c ∉ s) (h : s ++ b = w ++ c :: v) :
    ∃ x, w = s ++ x ∧ b = x ++ c :: v := by
  rcases List.append_eq_append_iff.mp h with ⟨x, rfl, rfl⟩ | ⟨x, rfl, hx⟩
  · exact ⟨x, rfl, rfl⟩
  · rcases x with _ | ⟨d, x⟩
    · exact ⟨[], by simp, hx.symm⟩
    · obtain ⟨rfl, -⟩ := List.cons.inj hx
      exact absurd (by simp) hs

theorem contains_mono {name text text' : Text} (h : contains name text = true)
    (hsub : text <:+: text') : contains name text' = true := by
  obtain ⟨before, rest, rfl⟩ := contains_iff.mp h
  obtain ⟨u, v, rfl⟩ := hsub
  exact contains_iff.mpr ⟨u ++ before, rest ++ v, by simp⟩

/-- A name that is longer than a text does not occur in it. -/
theorem contains_eq_false_of_length {name text : Text} (h : text.length < name.length) :
    contains name text = false := by
  by_contra hcontains
  obtain ⟨before, rest, rfl⟩ := contains_iff.mp (Bool.not_eq_false _ ▸ hcontains)
  simp only [List.length_append] at h
  omega

theorem contains_nil {name : Text} (hne : name ≠ []) : contains name [] = false :=
  contains_eq_false_of_length (List.length_pos_iff.mpr hne)

/-- A token that no occurrence of a name reaches into: its outermost characters are not those of the
name, and the name is no part of it. -/
structure Severs (token name : Text) : Prop where
  ne_nil : token ≠ []
  head : ∀ c ∈ token.head?, c ∉ name
  last : ∀ c ∈ token.getLast?, c ∉ name
  inside : contains name token = false

theorem Severs.contains_append {token name : Text} (h : Severs token name) (before rest : Text) :
    contains name (before ++ token ++ rest) = (contains name before || contains name rest) := by
  obtain ⟨hne, hhead, hlast, hinside⟩ := h
  obtain ⟨c, tail, rfl⟩ := List.exists_cons_of_ne_nil hne
  rw [List.append_assoc, List.cons_append, contains_append_cons (hhead c rfl)]
  rcases List.eq_nil_or_concat tail with rfl | ⟨middle, d, rfl⟩
  · rfl
  · rw [List.concat_eq_append] at hlast hinside ⊢
    have hmiddle : contains name middle = false := Bool.eq_false_of_not_eq_true fun h => by
      rw [contains_mono h ⟨[c], [d], by simp⟩] at hinside
      cases hinside
    rw [List.append_assoc, List.singleton_append,
      contains_append_cons (hlast d (by simp [List.getLast?_cons])), hmiddle, Bool.false_or]

theorem infix_intercalate {separator part : Text} {parts : List Text} (h : part ∈ parts) :
    part <:+: separator.intercalate parts := by
  induction parts with
  | nil => cases h
  | cons first parts ih =>
    cases parts with
    | nil =>
      obtain rfl := List.mem_singleton.mp h
      simp [List.intercalate]
    | cons next parts =>
      rw [List.intercalate_cons_cons]
      rcases List.mem_cons.mp h with rfl | h
      · exact ⟨[], separator ++ separator.intercalate (next :: parts), by simp⟩
      · exact (ih h).trans (List.suffix_append ..).isInfix

/-- A name stands in a joined text if it stands in one of the parts. -/
theorem contains_intercalate {separator name : Text} (h : Severs separator name) (hne : name ≠ [])
    (parts : List Text) :
    contains name (separator.intercalate parts) = parts.any (contains name) := by
  induction parts with
  | nil => exact contains_nil hne
  | cons part parts ih =>
    cases parts with
    | nil => simp [List.intercalate]
    | cons next parts =>
      rw [List.intercalate_cons_cons, h.contains_append, ih, List.any_cons (l := next :: parts)]

end Text

open Text

namespace Context

/-! ### Names of four digits -/

/-- A name of four digits: its first letter stands nowhere else in it. -/
theorem generatedName_four {n : Nat} (h : n < 10000) :
    ∃ tail, generatedName n = 'i' :: tail ∧ tail.length = 7 ∧ 'i' ∉ tail := by
  obtain ⟨digits, hdigits, hname⟩ := generatedName_eq n
  have hlen : digits.length = 4 := by
    have hle := Nat.toDigits_length 10 n 4 (by decide) h
    have hpadded : digits = Text.padded 4 n := List.append_cancel_left (hname.symm.trans rfl)
    rw [hpadded, Text.padded, List.length_append, List.length_replicate]
    omega
  refine ⟨['t', 'e', 'm'] ++ digits, hname, by simp [hlen], ?_⟩
  rw [List.mem_append, not_or]
  exact ⟨by decide, fun hmem => absurd (hdigits _ hmem) (by decide)⟩

theorem length_generatedName {n : Nat} (h : n < 10000) : (generatedName n).length = 8 := by
  obtain ⟨tail, hname, hlen, -⟩ := generatedName_four h
  rw [hname, List.length_cons, hlen]

section Four

variable {n m : Nat} (hn : n < 10000) (hm : m < 10000)
include hn hm

theorem contains_generatedName (hne : n ≠ m) :
    contains (generatedName n) (generatedName m) = false := by
  by_contra hcontains
  obtain ⟨before, rest, h⟩ := contains_iff.mp (Bool.not_eq_false _ ▸ hcontains)
  have hlen := congrArg List.length h
  simp only [List.length_append, length_generatedName hn, length_generatedName hm] at hlen
  obtain rfl : before = [] := List.length_eq_zero_iff.mp (by omega)
  obtain rfl : rest = [] := List.length_eq_zero_iff.mp (by omega)
  exact hne (generatedName_injective (by simpa using h.symm))

/-- Names of four digits do not run into each other: where one is put between two texts, no other one
arises. -/
theorem contains_generatedName_append (hne : n ≠ m) (before rest : Text) :
    contains (generatedName n) (before ++ generatedName m ++ rest) =
      (contains (generatedName n) before || contains (generatedName n) rest) := by
  rw [Bool.eq_iff_iff, Bool.or_eq_true]
  refine ⟨fun h => ?_, fun h => h.elim
    (fun h => contains_mono h ⟨[], generatedName m ++ rest, by simp⟩)
    fun h => contains_mono h ⟨before ++ generatedName m, [], by simp⟩⟩
  obtain ⟨u, v, huv⟩ := contains_iff.mp h
  obtain ⟨tail, hname, hlen, hi⟩ := generatedName_four hn
  obtain ⟨tail', hname', hlen', hi'⟩ := generatedName_four hm
  rw [hname, hname', List.append_assoc, List.append_assoc, List.cons_append, List.cons_append] at huv
  -- neither name has a second `i`, so they start at the same place or stand apart
  rcases List.append_eq_append_iff.mp huv with ⟨w, rfl, hw⟩ | ⟨w, rfl, hw⟩
  · rcases w with _ | ⟨c, w⟩
    · have htails := (List.append_inj (List.cons.inj hw).2 (hlen'.trans hlen.symm)).1
      exact absurd (generatedName_injective (by rw [hname, hname', htails])) hne
    · obtain ⟨x, -, rfl⟩ := exists_of_append_cons hi' (List.cons.inj hw).2
      exact .inr (contains_iff.mpr ⟨x, v, by simp [hname]⟩)
  · rcases w with _ | ⟨c, w⟩
    · have htails := (List.append_inj (List.cons.inj hw).2 (hlen.trans hlen'.symm)).1
      exact absurd (generatedName_injective (by rw [hname, hname', htails])) hne
    · obtain ⟨rfl, htails⟩ := List.cons.inj hw
      obtain ⟨x, rfl, -⟩ := exists_of_append_cons hi htails
      exact .inl (contains_iff.mpr ⟨u, x, by simp [hname]⟩)

end Four

/-! ### Tidy tables -/

/-- A text holds no generated name that is free in the source. -/
structure Foreign (source key : Text) : Prop where
  ne_nil : key ≠ []
  names : ∀ n, contains (generatedName n) key = true → contains (generatedName n) source = true

theorem Foreign.of_part {source key : Text} (hne : key ≠ []) (h : key <:+: source) :
    Foreign source key :=
  ⟨hne, fun _ hname => contains_mono hname h⟩

theorem Foreign.of_not_mem {source key : Text} (hne : key ≠ []) (h : 'm' ∉ key) :
    Foreign source key := by
  refine ⟨hne, fun n hname => ?_⟩
  rw [contains_eq_false (by simp [generatedName]) h] at hname
  cases hname

theorem Foreign.of_forall {source key : Text} (hne : key ≠ []) (h : ∀ c ∈ key, c.isDigit = false) :
    Foreign source key := by
  refine ⟨hne, fun n hname => ?_⟩
  have hdigits : Nat.toDigits 10 n ≠ [] := List.length_pos_iff.mp Nat.length_toDigits_pos
  obtain ⟨c, hc⟩ := List.exists_mem_of_ne_nil _ hdigits
  have hmem : c ∈ generatedName n := by simp [generatedName, Text.padded, hc]
  have hkey : c ∉ key := fun hkey => by
    have hdigit := h c hkey
    rw [Nat.isDigit_of_mem_toDigits (by decide) (by decide) hc] at hdigit
    cases hdigit
  rw [contains_eq_false hmem hkey] at hname
  cases hname

/-- No name stands for two things: generated names are numbered up to the counter, what else is known
holds none of them, and no literal has the name of a part of the text. -/
structure Tidy (source unquoted : Text) (names : List Text) (ctx : Context) : Prop
    extends Sourced source unquoted names ctx where
  numbered : ∀ name ∈ ctx.generatedNames, ∃ n ≤ ctx.counter, name = generatedName n
  foreign : ∀ key ∈ ctx.constants.map Prod.fst ++ ctx.literals.map Prod.fst,
    key ∈ ctx.literals.map Prod.snd ∨ Foreign source key
  apart : ∀ name ∈ ctx.literals.map Prod.snd, ctx.symbol? name = none

namespace Tidy

variable {source unquoted : Text} {names : List Text} {ctx : Context}

theorem intern (h : Tidy source unquoted names ctx) (value : Value) {text : Text}
    (htext : Foreign source text) : Tidy source unquoted names (ctx.intern value text).2 := by
  refine ⟨h.toSourced.intern value text, ?_, ?_, ?_⟩
  all_goals
    rw [Context.intern]
    split
  · exact h.numbered
  · rintro name (_ | ⟨_, hname⟩)
    · exact ⟨_, le_rfl, rfl⟩
    · obtain ⟨n, hn, rfl⟩ := h.numbered name hname
      exact ⟨n, hn.trans (lt_freshNumber ..).le, rfl⟩
  · exact h.foreign
  · intro key hkey
    rcases List.mem_append.mp hkey with hkey | hkey
    · rcases List.mem_cons.mp hkey with rfl | hkey
      · exact .inl (List.mem_cons_self ..)
      · exact (h.foreign key (List.mem_append_left _ hkey)).imp_left (List.mem_cons_of_mem _)
    · rcases List.mem_cons.mp hkey with rfl | hkey
      · exact .inr htext
      · exact (h.foreign key (List.mem_append_right _ hkey)).imp_left (List.mem_cons_of_mem _)
  · exact h.apart
  · rintro name (_ | ⟨_, hname⟩)
    · exact symbol?_addSymbol_fst ctx text false
    · exact h.apart name hname

theorem addSymbol (h : Tidy source unquoted names ctx) (text : Text) (isCall : Bool) :
    Tidy source unquoted names (ctx.addSymbol text isCall).2 := by
  refine ⟨h.toSourced.addSymbol text isCall, fun name hname => ?_, h.foreign, fun name hname => ?_⟩
  · rcases List.mem_append.mp hname with hname | hname
    · obtain ⟨n, hn, rfl⟩ := h.numbered name (List.mem_append_left _ hname)
      exact ⟨n, hn.trans (lt_freshNumber ..).le, rfl⟩
    · obtain ⟨hmem, hne⟩ := List.mem_filter.mp hname
      rcases List.mem_cons.mp hmem with rfl | hmem
      · exact ⟨_, le_rfl, rfl⟩
      · obtain ⟨n, hn, rfl⟩ := h.numbered name
          (List.mem_append_right _ (List.mem_filter.mpr ⟨hmem, hne⟩))
        exact ⟨n, hn.trans (lt_freshNumber ..).le, rfl⟩
  · -- a literal is known, and the new name is not
    rw [symbol?_addSymbol_eq, if_neg, h.apart name hname]
    rintro rfl
    have hfree := ctx.freshName_free
    rw [isTaken, Bool.or_eq_false_iff] at hfree
    have hknown := isKnown_of_mem (h.constants _ hname)
    rw [show (ctx.addSymbol text isCall).1 = ctx.freshName.1 from rfl, hfree.2] at hknown
    cases hknown

theorem setText (h : Tidy source unquoted names ctx) (key text : Text) :
    Tidy source unquoted names (ctx.setText key text) := by
  refine ⟨h.toSourced.setText key text, fun name hname => h.numbered name ?_, h.foreign,
    fun name hname => ?_⟩
  · simpa [generatedNames, Context.setText, Function.comp_def] using hname
  · rw [symbol?_setText, h.apart name hname, Option.map_none]

theorem markSymbols (h : Tidy source unquoted names ctx) (markers : Markers) :
    Tidy source unquoted names (ctx.markSymbols markers) := by
  refine ⟨h.toSourced.markSymbols markers, fun name hname => h.numbered name ?_, h.foreign,
    fun name hname => ?_⟩
  · simpa [generatedNames, Context.markSymbols, Function.comp_def] using hname
  · rw [symbol?_markSymbols, h.apart name hname, Option.map_none]

/-- The whole text gets the empty name, which is none of a literal. -/
theorem addMain (h : Tidy source unquoted names ctx) (s : Symbol) :
    Tidy source unquoted names { ctx with symbols := (mainName, s) :: ctx.symbols } := by
  have hnames : generatedNames { ctx with symbols := (mainName, s) :: ctx.symbols } =
      ctx.generatedNames := by simp [generatedNames]
  refine ⟨⟨h.source_eq, h.unquoted_eq, hnames ▸ h.fresh, h.names, h.constants⟩, hnames ▸ h.numbered,
    h.foreign, fun name hname => ?_⟩
  obtain ⟨n, -, rfl⟩ := h.numbered name (List.mem_append_left _ hname)
  rw [symbol?, List.lookup_cons, mainName, beq_false_of_ne (generatedName_ne_nil n)]
  exact h.apart _ hname

/-- The symbols have the empty name and generated names. -/
theorem symbol_cases (h : Tidy source unquoted names ctx) {key : Text} {s : Symbol}
    (hkey : ctx.symbol? key = some s) : key = mainName ∨
      ∃ n ≤ ctx.counter, key = generatedName n ∧ contains key source = false := by
  by_cases hmain : key = mainName
  · exact .inl hmain
  · have hmem : key ∈ ctx.generatedNames := List.mem_append_right _ (List.mem_filter.mpr
      ⟨List.mem_map_of_mem (mem_symbols_of_symbol? hkey), decide_eq_true hmain⟩)
    obtain ⟨n, hn, rfl⟩ := h.numbered key hmem
    exact .inr ⟨n, hn, rfl, (h.fresh _ hmem).1⟩

/-- A symbol is no constant. -/
theorem constant?_eq_none (h : Tidy source unquoted names ctx) {key : Text} {s : Symbol}
    (hkey : ctx.symbol? key = some s) : ctx.constant? key = none := by
  have hforeign : ¬Foreign source key := fun hforeign => by
    rcases h.symbol_cases hkey with rfl | ⟨n, -, rfl, hfree⟩
    · exact hforeign.ne_nil rfl
    · rw [hforeign.names n (contains_iff.mpr ⟨[], [], by simp⟩)] at hfree
      cases hfree
  have hliteral : key ∉ ctx.literals.map Prod.snd := fun hmem => by
    rw [h.apart key hmem] at hkey
    cases hkey
  refine Option.not_isSome_iff_eq_none.mp fun hsome => ?_
  exact (h.foreign key (mem_of_isSome_constant? hsome)).elim hliteral hforeign

/-- String literals are parts of the source. -/
theorem takeStrings (h : Tidy source unquoted names ctx) {text : Text} (hsub : text <:+: source) :
    Tidy source unquoted names (Context.takeStrings text ctx).2 := by
  induction hlen : text.length using Nat.strongRecOn generalizing text ctx with
  | _ n ih =>
    cases hfirst : Source.firstString? text with
    | none => rwa [takeStrings_of_none hfirst]
    | some s =>
      obtain ⟨tail, htail⟩ := Source.exists_cons_of_firstString? hfirst
      have htext := Source.eq_append_of_firstString? hfirst
      rw [takeStrings_of_some hfirst]
      refine ih s.rest.length (hlen ▸ Source.length_of_firstString? hfirst)
        (h.intern _ (.of_part (by simp [htail]) (List.IsInfix.trans ?_ hsub)))
        (List.IsInfix.trans ?_ hsub) rfl
      · exact ⟨s.before, s.rest, htext.symm⟩
      · exact ⟨s.before ++ s.literal, [], by simp [htext]⟩

/-- Literals among the operands are those of the grammars. -/
theorem classify (h : Tidy source unquoted names ctx) {operands : List Text}
    {found found' : List (Nat × Text)} {ctx' : Context}
    (hsorted : Context.classify Registry.standard operands found ctx = .ok (found', ctx')) :
    Tidy source unquoted names ctx' := by
  induction operands generalizing found ctx with
  | nil =>
    obtain ⟨-, rfl⟩ := Prod.mk.inj (Except.ok.inj hsorted)
    exact h
  | cons operand rest ih =>
    rw [Context.classify] at hsorted
    split at hsorted
    · exact ih h hsorted
    · dsimp only at hsorted
      have hasked : Tidy source unquoted names { ctx with
          cancelled := ctx.cancelled || (Literal.parse Registry.standard operand).2 } :=
        ⟨⟨h.source_eq, h.unquoted_eq, h.fresh, h.names, h.constants⟩, h.numbered, h.foreign, h.apart⟩
      split at hsorted
      · next value hvalue =>
        have hliteral : Literal.ofGrammar? operand = some value := hvalue
        refine ih (hasked.intern value (.of_not_mem (Literal.ne_nil_of_ofGrammar? hliteral) ?_)) hsorted
        exact fun hmem => absurd (Literal.isLiteralChar_of_ofGrammar? hliteral _ hmem) (by decide)
      · split at hsorted
        · split at hsorted
          · exact ih hasked hsorted
          · cases hsorted
        · cases hsorted

end Tidy

end Context

/-- Names of four digits in place of quotation marks bring no other one. -/
theorem Source.Fills.contains {isName : Text → Prop} {out filled : Text} (h : Fills isName out filled)
    {n : Nat} (hn : n < 10000)
    (hnames : ∀ name, isName name → ∃ m < 10000, name = Context.generatedName m ∧ n ≠ m)
    (hfilled : Text.contains (Context.generatedName n) filled = true) :
    Text.contains (Context.generatedName n) out = true := by
  have hquote : '"' ∉ Context.generatedName n := fun hquote =>
    absurd (Context.Sorted.isWordChar_of_mem_generatedName hquote) (by decide)
  induction h with
  | refl => exact hfilled
  | @name before name out filled hname _ ih =>
    obtain ⟨m, hm, rfl, hne⟩ := hnames name hname
    rw [Context.contains_generatedName_append hn hm hne, Bool.or_eq_true] at hfilled
    rw [contains_append_cons hquote, Bool.or_eq_true]
    exact hfilled.imp_right ih

namespace Compiler

open Source

/-- A constant in brackets holds no digits. -/
theorem foreign_bracketed {source inner : Text} (h : (Constants.symbol? inner).isSome = true) :
    Context.Foreign source ('[' :: (inner ++ [']'])) := by
  have hletters : (constantLetters.all fun c => !c.isDigit) = true := by decide
  refine .of_forall (List.cons_ne_nil _ _) (forall_mem_bracketed h rfl rfl (fun c hblank => ?_)
    fun c hletter => ?_)
  · refine Bool.eq_false_of_not_eq_true fun hdigit => ?_
    have := isWordChar_of_isBlank hblank
    rw [isWordChar_of_isDigit hdigit] at this
    cases this
  · have hlower := List.all_eq_true.mp hletters _ hletter
    refine Bool.eq_false_of_not_eq_true fun hdigit => ?_
    rw [toLower_of_isDigit hdigit, hdigit] at hlower
    cases hlower

/-- The literals of a source are taken out of it. -/
theorem tidy_extractLiterals (style : Precedence) (source : Text) :
    Context.Tidy source (Context.takeStrings source (Context.start source)).1
      ((Context.takeStrings source (Context.start source)).2.literals.map Prod.snd)
      ((Context.start source).extractLiterals (common style).definition (common style).registry).2 := by
  have hnamed : ((Constants.named.map fun p => p.1.toList).all fun key =>
      !key.isEmpty && 'm' ∉ key) = true := by decide
  have hstart : Context.Tidy source source [] (Context.start source) := by
    refine ⟨⟨rfl, rfl, by simp [Context.generatedNames], by simp, by simp⟩,
      by simp [Context.generatedNames], fun key hkey => ?_, by simp⟩
    obtain ⟨p, hp, rfl⟩ : ∃ p ∈ Constants.named, p.1.toList = key := by simpa using hkey
    have hall := List.all_eq_true.mp hnamed p.1.toList (List.mem_map_of_mem hp)
    rw [Bool.and_eq_true, Bool.not_eq_true', List.isEmpty_eq_false_iff, decide_eq_true_eq] at hall
    exact .inr (.of_not_mem hall.1 hall.2)
  have hstrings := hstart.takeStrings (List.infix_refl source)
  rw [show ((Context.start source).extractLiterals (common style).definition
    (common style).registry) = _ from Context.extractLiterals_common style source]
  refine Context.pass_induct (P := fun _ ctx => Context.Tidy source _ _ ctx)
    (fun _ offset before number rest value ctx hfound h => h.intern value ?_) _ _ _ ?_
  · obtain ⟨hchars, c, hc, -⟩ :=
      mem_numberChars_of_takeNumber? (Extractor.of_scanNumber_append hfound).1
    refine .of_not_mem (List.ne_nil_of_mem hc) fun hmem => ?_
    exact (hchars _ hmem).elim (by decide) (by decide)
  refine Context.pass_induct (P := fun _ ctx => Context.Tidy source _ _ ctx)
    (fun _ offset before literal rest value ctx hfound h => h.intern value ?_) _ _ _ ?_
  · obtain ⟨inner, rfl, hsymbol⟩ := Extractor.of_scanSymbol_append hfound
    exact foreign_bracketed hsymbol
  exact ⟨⟨hstrings.source_eq, rfl, hstrings.fresh, fun _ hname => hname, hstrings.constants⟩,
    hstrings.numbered, hstrings.foreign, hstrings.apart⟩

namespace Resolves

variable {style : Precedence} {source : Text} {ctx : Context}

/-- The tables of a compilation are tidy. -/
theorem tidy (h : (common style).Resolves source ctx) :
    Context.Tidy source (Context.takeStrings source (Context.start source)).1
      ((Context.takeStrings source (Context.start source)).2.literals.map Prod.snd) ctx := by
  obtain ⟨-, text₁, ctx₁, ctx₂, sorted, hcalls, hgroups, hclassify, rfl⟩ := exists_stages h
  have hmain := hcalls.preserves
    (P := Context.Tidy source (Context.takeStrings source (Context.start source)).1
      ((Context.takeStrings source (Context.start source)).2.literals.map Prod.snd))
    (fun _ text isCall h => h.addSymbol text isCall) ((tidy_extractLiterals style source).addMain _)
  have hflat := hgroups.preserves (fun _ text h => h.addSymbol text false)
    (fun _ key text h => h.setText key text) (hmain.setText Context.mainName text₁)
  have hsorted := (hflat.markSymbols _).classify hclassify
  exact ⟨⟨hsorted.source_eq, hsorted.unquoted_eq, hsorted.fresh, hsorted.names, hsorted.constants⟩,
    hsorted.numbered, hsorted.foreign, hsorted.apart⟩

theorem isIdentifier_of_parameter (h : (common style).Resolves source ctx) {p : Parameter}
    (hp : p ∈ ctx.params) : isIdentifier p.name.toList = true := by
  obtain ⟨-, found, hparams, hfound⟩ := h.found
  obtain ⟨entry, hentry, hname⟩ := List.mem_map.mp (Context.mem_orderedParameters.mp (hparams ▸ hp)).2
  rw [← hname]
  exact hfound.identifier entry hentry

/-- As long as names have four digits, the name of a part of the text is in no parameter. -/
theorem contains_of_parameter (h : (common style).Resolves source ctx) (hcounter : ctx.counter < 10000)
    {n : Nat} {s : Symbol} (hs : ctx.symbol? (Context.generatedName n) = some s) {p : Parameter}
    (hp : p ∈ ctx.params) : contains (Context.generatedName n) p.name.toList = false := by
  have htidy := h.tidy
  obtain ⟨-, found, hparams, hfound⟩ := h.found
  obtain ⟨entry, hentry, hname⟩ := List.mem_map.mp (Context.mem_orderedParameters.mp (hparams ▸ hp)).2
  obtain ⟨before, rest, hunquoted, -⟩ := exists_of_firstWord? (hfound.word entry hentry)
  obtain hmain | ⟨m, hm, heq, hfree⟩ := htidy.symbol_cases hs
  · exact absurd hmain (Context.generatedName_ne_nil n)
  obtain rfl := Context.generatedName_injective heq
  by_contra hcontains
  have hword : entry.2 <:+: (Context.takeStrings source (Context.start source)).1 :=
    ⟨before, rest, hunquoted.symm⟩
  have hfilled := contains_mono (Bool.not_eq_false _ ▸ hcontains) (hname ▸ hword)
  -- the names of literals bring no name of a part
  have houtside := (Context.fills_takeStrings source (Context.start source)).contains
    (hm.trans_lt hcounter) (fun name hmem => ?_) hfilled
  · have hquote : '"' ∉ Context.generatedName n := fun hquote =>
      absurd (Context.Sorted.isWordChar_of_mem_generatedName hquote) (by decide)
    rw [contains_of_contains_outside hquote houtside] at hfree
    cases hfree
  · have hliteral := htidy.names name hmem
    obtain ⟨k, hk, rfl⟩ := htidy.numbered name (List.mem_append_left _ hliteral)
    refine ⟨k, hk.trans_lt hcounter, rfl, ?_⟩
    rintro rfl
    rw [htidy.apart _ hliteral] at hs
    cases hs

end Resolves

end Compiler

end Formula
