import Formula.Compile.Basic
import Formula.Proofs.Compile.Atoms
import Formula.Proofs.Compile.Naming

/-!
# From a chain to the tables

The stages before the tree is built find nothing to take out of a chain: no literals, no calls and
no groups. What stands between its operators are its atoms. Each atom that is a literal gets a
name of its own, which is fresh, and every other atom becomes a parameter. So an atom is a constant
or a parameter in the tables, and a text with an operator is neither.

## Main definitions

* `Compiler.common`: the compiler for the common tokens.
* `Context.Sorted`: the invariant while the operands are sorted out.
* `Context.Prepared`: what the tables know about the atoms of a chain.
* `Context.plainKeys`, `Context.tableOperands`: what the stages work on.

## Main results

* `Context.extractLiterals_chain`: nothing is taken out of a chain.
* `Markers.operands_textAll`: the operands of a chain are its atoms.
* `Context.classify_sorted`: sorting out operands keeps the invariant.
* `Compiler.resolve_chain`: a chain gets through to the tables.
-/

namespace Formula

open Text

/-! ### The common tokens -/

/-- The operator tokens of the common definition, with their marked forms. -/
def Markers.common : Markers where
  tokens := [
    (['!', '='], "@op0@".toList), (['<', '<'], "@op1@".toList), (['<', '='], "@op2@".toList),
    (['>', '='], "@op3@".toList), (['>', '>'], "@op4@".toList), (['!'], ['!']), (['#'], ['#']),
    (['%'], ['%']), (['&'], ['&']), (['*'], ['*']), (['+'], ['+']), (['-'], ['-']), (['/'], ['/']),
    (['<'], ['<']), (['='], ['=']), (['>'], ['>']), (['^'], ['^']), (['|'], ['|'])]

theorem Definition.operatorTokens_common (style : Precedence) :
    ({ precedence := style } : Definition).operatorTokens = Markers.common.tokens.map Prod.fst := by
  have hdistinct : (({ precedence := style } : Definition).operators.map
      fun entry => entry.2.toList).eraseDups =
        [['+'], ['-'], ['*'], ['/'], ['%'], ['^'], ['='], ['!', '='], ['>'], ['>', '='], ['<'],
          ['<', '='], ['&'], ['|'], ['#'], ['<', '<'], ['>', '>'], ['!']] := by
    cases style <;> decide
  refine (congrArg (fun tokens : List Text => tokens.mergeSort _) hdistinct).trans ?_
  simp +decide [List.mergeSort, List.MergeSort.Internal.splitInTwo, Markers.common]

theorem Markers.ofDefinition_common (style : Precedence) :
    Markers.ofDefinition { precedence := style } = Markers.common := by
  rw [ofDefinition, Definition.operatorTokens_common]
  rfl

/-- The compiler for the common tokens, with the plugins of the language. -/
def Compiler.common (style : Precedence) : Compiler where
  definition := { precedence := style }
  registry := Registry.standard
  markers := Markers.common

@[simp]
theorem Compiler.markers_common (style : Precedence) :
    (Compiler.common style).tokens.markers = Markers.common := rfl

theorem Compiler.make_common (style : Precedence) :
    Compiler.make { precedence := style } Registry.standard = .ok (Compiler.common style) := by
  have hvalid : Definition.validate { precedence := style } = .ok () := by
    cases style <;> decide
  rw [make, hvalid, Markers.ofDefinition_common]
  rfl

/-! ### Searches for literals -/

namespace Context

/-- A pass that finds nothing leaves everything as it is. -/
theorem pass_eq_self {scan : Nat → Text → Nat → Extraction} [Counted scan] {text : Text}
    (h : ∀ count offset first last v, scan count text offset ≠ .found first last v)
    (count offset : Nat) (ctx : Context) : pass scan count text offset ctx = (text, ctx) := by
  induction hmeasure : Text.byteLength text + 1 - offset using Nat.strongRecOn
    generalizing count offset with
  | _ measure ih =>
    by_cases hle : offset ≤ Text.byteLength text
    · cases hscan : scan count text offset with
      | exhausted => rw [pass, dif_pos hle, hscan]
      | invalid place =>
        rw [pass_of_invalid hle hscan]
        refine ih _ ?_ (count + 1) _ rfl
        have := stepAt_pos text (max place offset)
        omega
      | found first last v => exact absurd hscan (h count offset first last v)
    · rw [pass, dif_neg hle]

section Intern

variable (ctx : Context) (value : Value) (text : Text)

@[simp]
theorem symbols_intern : (ctx.intern value text).2.symbols = ctx.symbols := by
  rw [intern]
  split <;> rfl

@[simp]
theorem params_intern : (ctx.intern value text).2.params = ctx.params := by
  rw [intern]
  split <;> rfl

@[simp]
theorem source_intern : (ctx.intern value text).2.source = ctx.source := by
  rw [intern]
  split <;> rfl

@[simp]
theorem unquoted_intern : (ctx.intern value text).2.unquoted = ctx.unquoted := by
  rw [intern]
  split <;> rfl

@[simp]
theorem cancelled_intern : (ctx.intern value text).2.cancelled = ctx.cancelled := by
  rw [intern]
  split <;> rfl

@[simp]
theorem overrun_intern : (ctx.intern value text).2.overrun = ctx.overrun := by
  rw [intern]
  split <;> rfl

end Intern

/-- A pass whose places can all be stepped over does not overrun the machine words. -/
theorem overrun_pass {scan : Nat → Text → Nat → Extraction} [Counted scan] (count : Nat)
    (text : Text) (offset : Nat) (ctx : Context) :
    (pass scan count text offset ctx).2.overrun = ctx.overrun := by
  fun_induction pass scan count text offset ctx with
  | case1 | case4 | case6 | case7 => rfl
  | case2 count text offset ctx hle place hscan hnone =>
    rw [Counted.placeBehind? hle hscan] at hnone
    cases hnone
  | case3 _ _ _ _ _ _ _ _ _ ih => exact ih
  | case5 _ _ _ ctx _ _ _ value _ _ _ literal _ _ _ named ih =>
    exact ih.trans (overrun_intern ctx value literal)

theorem overrun_passes {d : Definition} {extractors : List Extractor}
    (h : ∀ e ∈ extractors, Counted (e.scan d)) (stripped : Bool) (text : Text) (ctx : Context) :
    (passes d extractors stripped text ctx).2.overrun = ctx.overrun := by
  induction extractors generalizing stripped text ctx with
  | nil =>
    rw [passes]
    split <;> rfl
  | cons e rest ih =>
    obtain ⟨_, hrest⟩ := List.forall_mem_cons.mp h
    rw [passes]
    dsimp only
    rw [ih hrest, overrun_pass]
    split <;> rfl

/-- Extractors that find nothing in a text without white space leave everything as it is. -/
theorem passes_eq_self {d : Definition} {extractors : List Extractor} {text : Text} {ctx : Context}
    (hblanks : Text.withoutBlanks text = text) (hunquoted : ctx.unquoted = text)
    (hcounted : ∀ e ∈ extractors, Counted (e.scan d))
    (h : ∀ e ∈ extractors, e.cancels = false ∧
      ∀ count offset first last v, e.scan d count text offset ≠ .found first last v)
    (stripped : Bool) : passes d extractors stripped text ctx = (text, ctx) := by
  have hstrip : stripBlanks text ctx = (text, ctx) := by
    obtain ⟨_, _, _, _, _, _, _, _, _⟩ := ctx
    obtain rfl := hunquoted
    rw [stripBlanks, hblanks]
  induction extractors generalizing stripped with
  | nil => rw [passes, hstrip, ite_self]
  | cons e rest ih =>
    obtain ⟨⟨hcancels, hscan⟩, hrest⟩ := List.forall_mem_cons.mp h
    obtain ⟨_, hcounted⟩ := List.forall_mem_cons.mp hcounted
    have hctx : { ctx with cancelled := ctx.cancelled || e.cancels } = ctx := by
      rw [hcancels, Bool.or_false]
    rw [passes, hstrip, ite_self]
    dsimp only
    rw [hctx, pass_eq_self hscan]
    exact ih hcounted hrest _

end Context

theorem Text.bind_cut?_eq_none {token text : Text} {c : Char} (hc : c ∈ token) (h : c ∉ text)
    (start : Nat) :
    ((Text.splitAtByte? start text).bind fun (_, rest) => Text.cut? token rest) = none := by
  cases hsplit : Text.splitAtByte? start text with
  | none => rfl
  | some parts =>
    obtain ⟨before, rest⟩ := parts
    obtain ⟨rfl, -⟩ := Text.eq_append_of_splitAtByte? hsplit
    exact Text.cut?_eq_none hc fun hmem => h (List.mem_append_right _ hmem)

instance (d : Definition) : Context.Counted fun _ => Extractor.scanString d :=
  .of_ne fun _ text offset place => by
    rw [Extractor.scanString]
    split
    · simp
    · split <;> simp

instance (d : Definition) : Context.Counted fun _ => Extractor.scanSymbol d where
  place {_ text offset place} h := by
    simp only [Extractor.scanSymbol] at h
    split at h
    · cases h
    · next skipped inner hcut =>
      split at h
      · cases h
      · split at h
        · cases h
        · obtain rfl := Extraction.invalid.inj h
          obtain ⟨⟨before, rest⟩, hsplit, hopen⟩ := Option.bind_eq_some_iff.mp hcut
          obtain ⟨rfl, rfl⟩ := Text.eq_append_of_splitAtByte? hsplit
          obtain rfl := Text.eq_append_of_cut? hopen
          left
          simp only [Text.byteLength_append]
          omega

instance : Context.Counted fun _ => Extractor.scanNumber where
  place {_ text offset place} h := by
    have happend := Extractor.splitAtOrAfter_append offset text
    simp only [Extractor.scanNumber] at h
    split at h
    · cases h
    · next skipped number rest hnumber =>
      obtain ⟨tail, htail, -⟩ := Extractor.exists_of_findNumber? hnumber
      have hplace : Text.byteLength (Extractor.splitAtOrAfter offset text).1 +
          Text.byteLength skipped ≤ Text.byteLength text := by
        conv_rhs => rw [← happend, htail]
        simp only [Text.byteLength_append]
        omega
      left
      split at h
      · exact Extraction.invalid.inj h ▸ hplace
      · split at h
        · cases h
        · exact Extraction.invalid.inj h ▸ hplace

theorem Extractor.scanString_eq_exhausted {d : Definition} {text : Text} {c : Char}
    (hc : c ∈ d.stringIndicator.toList) (h : c ∉ text) (start : Nat) :
    scanString d text start = .exhausted := by
  simp only [scanString, Text.bind_cut?_eq_none hc h]

theorem Extractor.scanSymbol_eq_exhausted {d : Definition} {text : Text} {c : Char}
    (hc : c ∈ d.symbolIndicators.1.toList) (h : c ∉ text) (start : Nat) :
    scanSymbol d text start = .exhausted := by
  simp only [scanSymbol, Text.bind_cut?_eq_none hc h]

/-- The extractors of the language answer places in the text only. -/
theorem Registry.counted_standard (d : Definition) :
    ∀ e ∈ Registry.standard.extractors, Context.Counted (e.scan d) := by
  simp only [Registry.standard, List.forall_mem_cons, List.not_mem_nil, false_imp_iff, implies_true,
    and_true]
  exact ⟨inferInstanceAs (Context.Counted fun _ => Extractor.scanString d),
    inferInstanceAs (Context.Counted fun _ => Extractor.scanSymbol d),
    inferInstanceAs (Context.Counted fun _ => Extractor.scanNumber)⟩

theorem Compiler.overrun_extractLiterals (style : Precedence) (source : Text) :
    ((Context.start source).extractLiterals (common style).definition
      (common style).registry).2.overrun = false :=
  Context.overrun_passes (Registry.counted_standard _) ..

/-- Nothing is taken out of a text without white space, quotes, brackets and numbers. -/
theorem Context.extractLiterals_eq_self {text : Text} (hblanks : Text.withoutBlanks text = text)
    (hquote : '"' ∉ text) (hbracket : '[' ∉ text)
    (hnumbers : ∀ start first last v, Extractor.scanNumber text start ≠ .found first last v)
    (style : Precedence) :
    (Context.start text).extractLiterals { precedence := style } Registry.standard =
      (text, Context.start text) := by
  refine Context.passes_eq_self hblanks rfl (Registry.counted_standard _) ?_ false
  simp only [Registry.standard, List.forall_mem_cons, List.not_mem_nil, false_imp_iff, implies_true,
    and_true]
  refine ⟨⟨rfl, ?_⟩, ⟨rfl, ?_⟩, ⟨rfl, ?_⟩⟩ <;> intro _ offset first last v
  · change Extractor.scanString _ _ offset ≠ _
    rw [Extractor.scanString_eq_exhausted (c := '"') (by simp) hquote]
    simp
  · change Extractor.scanSymbol _ _ offset ≠ _
    rw [Extractor.scanSymbol_eq_exhausted (c := '[') (by simp) hbracket]
    simp
  · exact hnumbers offset first last v

theorem Family.isBlank_of_mem_marks {f : Family} {m : Char} (h : m ∈ f.marks) :
    isBlank m = false := by
  have hall : (f.marks.all fun m => !isBlank m) = true := by
    cases f <;> decide
  simpa using List.all_eq_true.mp hall m h

/-- A sequence of pieces of a family that ends after an atom. -/
structure IsChain (f : Family) (pieces : List Piece) : Prop where
  follow : f.follow true pieces = some false
  atoms : ∀ x, Piece.atom x ∈ pieces → f.isAtom x = true

namespace IsChain

variable {f : Family} {pieces : List Piece} (h : IsChain f pieces)
include h

/-- A character that is neither an operator nor part of a name does not occur. -/
theorem not_mem {c : Char} (hmark : c ∉ f.marks) (hword : isWordChar c = false) :
    c ∉ Piece.textAll pieces := by
  intro hmem
  rcases Family.mem_marks_or_isWordChar h.follow h.atoms hmem with hc | hc
  · exact hmark hc
  · rw [hword] at hc
    cases hc

theorem textAll_ne_nil : Piece.textAll pieces ≠ [] := by
  obtain ⟨c, hc, -⟩ := Family.getLast?_of_follow_false h.follow h.atoms
  intro hnil
  rw [hnil] at hc
  cases hc

theorem withoutBlanks : Text.withoutBlanks (Piece.textAll pieces) = Piece.textAll pieces := by
  rw [Text.withoutBlanks, List.filter_eq_self]
  intro c hc
  rw [Bool.not_eq_true']
  rcases Family.mem_marks_or_isWordChar h.follow h.atoms hc with hc | hc
  · exact Family.isBlank_of_mem_marks hc
  · exact Literal.isBlank_of_isWordChar hc

/-- Nothing is taken out of a chain. -/
theorem extractLiterals (style : Precedence) :
    (Context.start (Piece.textAll pieces)).extractLiterals { precedence := style }
      Registry.standard = (Piece.textAll pieces, Context.start (Piece.textAll pieces)) :=
  Context.extractLiterals_eq_self h.withoutBlanks (h.not_mem (by cases f <;> decide) (by decide))
    (h.not_mem (by cases f <;> decide) (by decide))
    (Extractor.scanNumber_ne_found h.follow h.atoms) style

end IsChain

/-! ### Operands -/

/-- Whether a character is none of operators, parentheses and white space. -/
def Text.isBareChar (c : Char) : Bool :=
  isIdentifierChar c || c == ','

theorem Text.isBareChar_of_isWordChar {c : Char} (h : isWordChar c = true) :
    isBareChar c = true :=
  Bool.or_eq_true_iff.mpr (.inl (isIdentifierChar_of_isWordChar h))

/-- The text of a piece that is an atom. -/
def Piece.atom? : Piece → Option Text
  | mark _ => none
  | atom text => some text

namespace Markers

/-- At an operator of a family the token of that operator is found. -/
theorem find?_mark {f : Family} {m : Char} (hm : m ∈ f.marks) (text : Text) :
    common.tokens.find? (fun (_, marked) => Text.startsWith marked (m :: text)) =
      some ([m], [m]) := by
  have hall : ∀ m ∈ f.marks,
      common.tokens.find? (fun (_, marked) => Text.startsWith marked (m :: text)) =
        some ([m], [m]) := by
    cases f with
    | arithmetic =>
      simp only [Family.marks, Family.operations, List.map_cons, List.map_nil,
        List.forall_mem_cons, List.not_mem_nil, false_imp_iff, implies_true, and_true]
      exact ⟨rfl, rfl, rfl, rfl, rfl, rfl, rfl⟩
    | logical =>
      simp only [Family.marks, Family.operations, List.map_cons, List.map_nil,
        List.forall_mem_cons, List.not_mem_nil, false_imp_iff, implies_true, and_true]
      exact ⟨rfl, rfl, rfl, rfl⟩
  exact hall m hm

/-- No operator starts with a bare character. -/
theorem find?_bare {c : Char} (hc : isBareChar c = true) (text : Text) :
    common.tokens.find? (fun (_, marked) => Text.startsWith marked (c :: text)) = none := by
  have hall : ∀ entry ∈ common.tokens, (entry.2.head?.any fun m => !isBareChar m) = true := by
    decide
  rw [List.find?_eq_none]
  intro entry hentry hstarts
  have hentry := hall entry hentry
  obtain ⟨rest, hrest⟩ := Option.isSome_iff_exists.mp hstarts
  have heq := Text.after?_eq_some_iff.mp hrest
  cases hmarked : entry.2 with
  | nil =>
    rw [hmarked] at hentry
    cases hentry
  | cons d marked =>
    rw [hmarked] at hentry heq
    obtain ⟨rfl, -⟩ := List.cons.inj heq
    simp [hc] at hentry

theorem operandsFrom_mark {f : Family} {m : Char} (hm : m ∈ f.marks) (text : Text) :
    common.operandsFrom 0 (m :: text) = [] :: common.operandsFrom 0 text := by
  rw [operandsFrom, find?_mark hm]
  rfl

theorem operandsFrom_append {x : Text} (hx : ∀ c ∈ x, isBareChar c = true) (text : Text) :
    common.operandsFrom 0 (x ++ text) = (common.operandsFrom 0 text).modifyHead (x ++ ·) := by
  induction x with
  | nil => exact (congrFun List.modifyHead_id (common.operandsFrom 0 text)).symm
  | cons c x ih =>
    obtain ⟨hc, hx⟩ := List.forall_mem_cons.mp hx
    rw [List.cons_append, operandsFrom, find?_bare hc, ih hx, List.modifyHead_modifyHead]
    rfl

/-- The operands of a chain are its atoms, in turn. -/
theorem operands_textAll {f : Family} {e e' : Bool} {pieces : List Piece}
    (h : f.follow e pieces = some e') (hatoms : ∀ x, Piece.atom x ∈ pieces → f.isAtom x = true) :
    common.operands (Piece.textAll pieces) = pieces.filterMap Piece.atom? := by
  rw [operands]
  induction pieces generalizing e with
  | nil => rfl
  | cons piece pieces ih =>
    have hrest : ∀ x, Piece.atom x ∈ pieces → f.isAtom x = true := fun x hx =>
      hatoms x (List.mem_cons_of_mem _ hx)
    rw [Piece.textAll_cons]
    cases piece with
    | mark m =>
      have hm := Family.mark_mem_of_follow h (List.mem_cons_self ..)
      rw [Piece.text, List.singleton_append, operandsFrom_mark hm, List.filter_cons_of_neg (by simp),
        ih (Family.follow_mark h) hrest]
      rfl
    | atom x =>
      have hx := hatoms x (List.mem_cons_self ..)
      have hnext : f.follow false pieces = some e' := by
        cases e with
        | true => exact h
        | false => cases h
      have hhead : ∃ rest, common.operandsFrom 0 (Piece.textAll pieces) = [] :: rest := by
        cases htext : Piece.textAll pieces with
        | nil => exact ⟨[], rfl⟩
        | cons c text =>
          have hc : c ∈ f.marks := Family.head?_of_follow_false hnext (by rw [htext]; rfl)
          exact ⟨_, operandsFrom_mark hc text⟩
      obtain ⟨rest, hrest'⟩ := hhead
      have ih := ih hnext hrest
      rw [hrest', List.filter_cons_of_neg (by simp)] at ih
      have hbare : ∀ c ∈ x, isBareChar c = true := fun c hc =>
        isBareChar_of_isWordChar (Family.isWordChar_of_mem_atom hx hc)
      rw [Piece.text, operandsFrom_append hbare, hrest', List.modifyHead_cons, List.append_nil,
        List.filter_cons_of_pos (by simp [Family.atom_ne_nil hx]), ih]
      rfl

/-- A text without the characters of comparisons has no tokens that are marked. -/
theorem mark_eq_self {text : Text} (h : ∀ c ∈ ['=', '<', '>'], c ∉ text) :
    common.mark text = text := by
  have hall : ∀ entry ∈ common.tokens,
      entry.1 = entry.2 ∨ (['=', '<', '>'].any fun c => c ∈ entry.1) = true := by
    decide
  rw [mark]
  generalize common.tokens = tokens at hall
  induction tokens with
  | nil => rfl
  | cons entry tokens ih =>
    obtain ⟨token, marked⟩ := entry
    obtain ⟨hentry, htokens⟩ := List.forall_mem_cons.mp hall
    have hstep : (if token = marked then text else Text.replaceAll token marked text) = text := by
      rcases hentry with heq | hany
      · rw [if_pos heq]
      · obtain ⟨c, hc, hmem⟩ := List.any_eq_true.mp hany
        rw [Text.replaceAll_eq_self (of_decide_eq_true hmem) (h c hc), ite_self]
    rw [List.foldl_cons]
    dsimp only
    rw [hstep]
    exact ih htokens

end Markers

/-! ### Sorting out the atoms -/

namespace Context

/-- The names of the named constants. -/
def constantNames : List Text :=
  Constants.named.map fun (name, _) => name.toList

/-- An atom of a family that occurs in a text and stands alone there. -/
structure StandsIn (f : Family) (src x : Text) : Prop where
  atom : f.isAtom x = true
  alone : ∃ before rest, src = before ++ x ++ rest ∧
    (∀ c ∈ before.getLast?, isIdentifierChar c = false) ∧
    ∀ c ∈ rest.head?, isIdentifierChar c = false

theorem StandsIn.contains {f : Family} {src x : Text} (h : StandsIn f src x) :
    Text.contains x src = true := by
  obtain ⟨before, rest, heq, -, -⟩ := h.alone
  exact Text.contains_iff.mpr ⟨before, rest, heq⟩

/-- The atoms `done` of a source have been sorted out, where `table` holds the symbols. The names of
the tables are fresh and apart, literals have names of their own, and all other atoms are found. -/
structure Sorted (f : Family) (src : Text) (table : List (Text × Symbol)) (done : List Text)
    (found : List (Nat × Text)) (ctx : Context) : Prop where
  source : ctx.source = src
  unquoted : ctx.unquoted = src
  params : ctx.params = []
  cancelled : ctx.cancelled = false
  symbols : ctx.symbols = table
  fresh : ∀ key ∈ table.map Prod.fst, key = [] ∨ Text.contains key src = false
  apart : ∀ key ∈ table.map Prod.fst, ctx.constant? key = none
  constants : ∀ key ∈ ctx.constants.map Prod.fst, key ≠ [] ∧ (∀ c ∈ key, isWordChar c = true) ∧
    (key ∈ constantNames ∨ Text.contains key src = false)
  literals : ∀ key name, ctx.literals.lookup key = some name →
    f.isAtom key = true ∧ ∃ v, f.value? key = some v ∧ ctx.constants.lookup name = some ⟨v, key⟩
  value : ∀ x ∈ done, (f.value? x).isSome → (ctx.literals.lookup x).isSome
  name : ∀ x ∈ done, f.value? x = none → x ∈ found.map Prod.snd
  distinct : (found.map Prod.snd).Nodup
  places : ∀ p ∈ found, Text.firstWord? p.2 src = some p.1
  found : ∀ x ∈ found.map Prod.snd, x ∈ done ∧ f.value? x = none

theorem not_mem_constantNames {f : Family} {x : Text} (h : f.isAtom x = true) :
    x ∉ constantNames := by
  rw [Family.isAtom, Bool.or_eq_true] at h
  rcases h with h | h
  · cases f with
    | arithmetic =>
      have hnames : ∀ name ∈ constantNames, (name.any fun c => !c.isDigit) = true := by
        decide
      intro hmem
      obtain ⟨c, hc, hnot⟩ := List.any_eq_true.mp (hnames x hmem)
      simp only [Family.value?] at h
      split at h
      · next hinteger =>
        simp only [isPlainInteger, Bool.and_eq_true, List.all_eq_true] at hinteger
        rw [hinteger.1.2 c hc] at hnot
        cases hnot
      · cases h
    | logical =>
      have htrue : "true".toList ∉ constantNames := by decide
      have hfalse : "false".toList ∉ constantNames := by decide
      simp only [Family.value?] at h
      split at h
      · next heq => rwa [heq]
      · split at h
        · next heq => rwa [heq]
        · cases h
  · simp only [isPlainName, Bool.and_eq_true, Bool.not_eq_true'] at h
    simpa [constantNames] using h.1.2

namespace Sorted

variable {f : Family} {src : Text} {table : List (Text × Symbol)} {done : List Text}
  {found : List (Nat × Text)} {ctx : Context}

/-- The constant of an atom is the one it is a literal of. -/
theorem constant?_atom (h : Sorted f src table done found ctx) {x : Text} (hx : StandsIn f src x) :
    ctx.constant? x = (ctx.literals.lookup x).bind fun name => ctx.constants.lookup name := by
  have hlookup : ctx.constants.lookup x = none := by
    by_contra hsome
    rcases (h.constants x (mem_map_fst_of_lookup (Option.ne_none_iff_isSome.mp hsome))).2.2 with
      hnamed | hfree
    · exact not_mem_constantNames hx.atom hnamed
    · rw [hx.contains] at hfree
      cases hfree
  rw [constant?, hlookup, Option.none_or]

/-- An atom that has been sorted out and is a literal is a constant. -/
theorem constant?_literal (h : Sorted f src table done found ctx) {x : Text}
    (hx : StandsIn f src x) (hdone : x ∈ done) {v : Value} (hvalue : f.value? x = some v) :
    ctx.constant? x = some ⟨v, x⟩ := by
  obtain ⟨name, hname⟩ := Option.isSome_iff_exists.mp (h.value x hdone (by rw [hvalue]; rfl))
  obtain ⟨-, w, hw, hconstant⟩ := h.literals x name hname
  obtain rfl := Option.some.inj (hvalue.symm.trans hw)
  rw [h.constant?_atom hx, hname, Option.bind_some, hconstant]

/-- An atom that is no literal is no constant. -/
theorem constant?_name (h : Sorted f src table done found ctx) {x : Text} (hx : StandsIn f src x)
    (hvalue : f.value? x = none) : ctx.constant? x = none := by
  rw [h.constant?_atom hx]
  cases hlookup : ctx.literals.lookup x with
  | none => rfl
  | some name =>
    obtain ⟨-, w, hw, -⟩ := h.literals x name hlookup
    rw [hvalue] at hw
    cases hw

/-- A text with an operator, and the empty text, is no constant. -/
theorem constant?_eq_none (h : Sorted f src table done found ctx) {key : Text}
    (hkey : key = [] ∨ ∃ c ∈ key, isWordChar c = false) : ctx.constant? key = none := by
  have hlookup : ctx.constants.lookup key = none := by
    by_contra hsome
    obtain ⟨hne, hword, -⟩ :=
      h.constants key (mem_map_fst_of_lookup (Option.ne_none_iff_isSome.mp hsome))
    rcases hkey with hnil | ⟨c, hc, hnot⟩
    · exact hne hnil
    · rw [hword c hc] at hnot
      cases hnot
  have hliteral : ctx.literals.lookup key = none := by
    cases hfound : ctx.literals.lookup key with
    | none => rfl
    | some name =>
      have hatom := (h.literals key name hfound).1
      rcases hkey with hnil | ⟨c, hc, hnot⟩
      · exact absurd hnil (Family.atom_ne_nil hatom)
      · rw [Family.isWordChar_of_mem_atom hatom hc] at hnot
        cases hnot
  rw [constant?, hlookup, hliteral]
  rfl

/-- No symbol has the name of an atom. -/
theorem not_mem_table (h : Sorted f src table done found ctx) {x : Text} (hx : StandsIn f src x) :
    x ∉ table.map Prod.fst := by
  intro hmem
  rcases h.fresh x hmem with hnil | hfree
  · exact Family.atom_ne_nil hx.atom hnil
  · rw [hx.contains] at hfree
    cases hfree

theorem symbol?_eq_none (h : Sorted f src table done found ctx) {x : Text} (hx : StandsIn f src x) :
    ctx.symbol? x = none := by
  by_contra hsome
  refine h.not_mem_table hx (h.symbols ▸ mem_map_fst_of_lookup ?_)
  exact Option.ne_none_iff_isSome.mp hsome

theorem isKnown_atom (h : Sorted f src table done found ctx) {x : Text} (hx : StandsIn f src x) :
    ctx.isKnown x = (ctx.literals.lookup x).isSome := by
  rw [isKnown, h.constant?_atom hx, h.symbol?_eq_none hx, h.params]
  cases hlookup : ctx.literals.lookup x with
  | none => rfl
  | some name =>
    obtain ⟨-, v, -, hconstant⟩ := h.literals x name hlookup
    rw [Option.bind_some, hconstant]
    rfl

/-- An atom that has been sorted out before changes nothing. -/
theorem again (h : Sorted f src table done found ctx) {x : Text} (hx : StandsIn f src x)
    (hknown : ctx.isKnown x = true ∨ x ∈ found.map Prod.snd) :
    Sorted f src table (done ++ [x]) found ctx := by
  refine { h with value := ?_, name := ?_, found := ?_ }
  · refine List.forall_mem_append.mpr ⟨h.value, List.forall_mem_singleton.mpr fun hvalue => ?_⟩
    rcases hknown with hknown | hfound
    · rwa [← h.isKnown_atom hx]
    · rw [(h.found x hfound).2] at hvalue
      cases hvalue
  · refine List.forall_mem_append.mpr ⟨h.name, List.forall_mem_singleton.mpr fun hvalue => ?_⟩
    rcases hknown with hknown | hfound
    · rw [h.isKnown_atom hx] at hknown
      obtain ⟨name, hname⟩ := Option.isSome_iff_exists.mp hknown
      obtain ⟨-, v, hv, -⟩ := h.literals x name hname
      rw [hvalue] at hv
      cases hv
    · exact hfound
  · intro y hy
    exact ⟨List.mem_append_left _ (h.found y hy).1, (h.found y hy).2⟩

/-- A new name is found. -/
theorem find (h : Sorted f src table done found ctx) {x : Text} (hvalue : f.value? x = none)
    (hnew : x ∉ found.map Prod.snd) {place : Nat} (hplace : Text.firstWord? x src = some place) :
    Sorted f src table (done ++ [x]) (found ++ [(place, x)]) ctx := by
  refine { h with value := ?_, name := ?_, found := ?_, distinct := ?_, places := ?_ }
  · refine List.forall_mem_append.mpr ⟨h.value, List.forall_mem_singleton.mpr fun hsome => ?_⟩
    rw [hvalue] at hsome
    cases hsome
  · rw [List.map_append]
    refine List.forall_mem_append.mpr
      ⟨fun y hy hnone => List.mem_append_left _ (h.name y hy hnone), ?_⟩
    exact List.forall_mem_singleton.mpr fun _ => by simp
  · rw [List.map_append]
    refine List.nodup_append.mpr ⟨h.distinct, List.pairwise_singleton _ _, fun y hy z hz => ?_⟩
    obtain rfl := List.mem_singleton.mp hz
    rintro rfl
    exact hnew hy
  · exact List.forall_mem_append.mpr ⟨h.places, by simpa using hplace⟩
  · rw [List.map_append]
    refine List.forall_mem_append.mpr ⟨fun y hy => ?_, ?_⟩
    · exact ⟨List.mem_append_left _ (h.found y hy).1, (h.found y hy).2⟩
    · exact List.forall_mem_singleton.mpr ⟨by simp, hvalue⟩

theorem isWordChar_of_mem_generatedName {n : Nat} {c : Char} (hc : c ∈ generatedName n) :
    isWordChar c = true := by
  simp only [generatedName, Text.padded, List.mem_append, List.mem_replicate] at hc
  rcases hc with hc | ⟨-, rfl⟩ | hc
  · exact List.all_eq_true.mp (by decide) c hc
  · decide
  · exact isWordChar_of_isDigit (Nat.isDigit_of_mem_toDigits (by decide) (by decide) hc)

/-- A new literal gets a name that is fresh, so that the names of the others stay theirs. -/
theorem intern (h : Sorted f src table done found ctx) {x : Text} (hx : StandsIn f src x) {v : Value}
    (hvalue : f.value? x = some v) (hnew : ctx.literals.lookup x = none) :
    Sorted f src table (done ++ [x]) found (ctx.intern v x).2 := by
  have hfree := ctx.freshName_free
  simp only [isTaken, isKnown, Bool.or_eq_false_iff, h.source] at hfree
  obtain ⟨hsource, ⟨hconstant, hsymbol⟩, -⟩ := hfree
  have hunknown : ctx.constants.lookup ctx.freshName.1 = none := by
    rw [constant?, Option.isSome_or, Bool.or_eq_false_iff] at hconstant
    simpa using hconstant.1
  have hintern : (ctx.intern v x).2 = { ctx.freshName.2 with
      constants := (ctx.freshName.1, { value := v, text := x }) :: ctx.constants
      literals := (x, ctx.freshName.1) :: ctx.literals } := by
    simp only [Context.intern, hnew, freshName]
  rw [hintern]
  refine ⟨h.source, h.unquoted, h.params, h.cancelled, h.symbols, h.fresh, ?_, ?_, ?_, ?_, ?_,
    h.distinct, h.places, ?_⟩
  · intro key hkey
    have hname : key ≠ ctx.freshName.1 := by
      rintro rfl
      rw [symbol?, h.symbols, Option.isSome_eq_false_iff, Option.isNone_iff_eq_none,
        List.lookup_eq_none_iff] at hsymbol
      obtain ⟨entry, hentry, heq⟩ := List.mem_map.mp hkey
      simpa [heq] using hsymbol entry hentry
    have hatom : key ≠ x := fun heq => h.not_mem_table hx (heq ▸ hkey)
    have hnone := h.apart key hkey
    rw [constant?, Option.or_eq_none_iff] at hnone
    have hliteral : ctx.literals.lookup key = none := by
      cases hlookup : ctx.literals.lookup key with
      | none => rfl
      | some name =>
        obtain ⟨-, w, -, hw⟩ := h.literals key name hlookup
        simp [hlookup, hw] at hnone
    simp [constant?, List.lookup_cons, beq_false_of_ne hname, beq_false_of_ne hatom, hnone.1,
      hliteral]
  · refine List.forall_mem_cons.mpr ⟨⟨by simp [freshName, generatedName], fun c hc =>
      isWordChar_of_mem_generatedName hc, .inr hsource⟩, h.constants⟩
  · intro key name hlookup
    rw [List.lookup_cons] at hlookup
    split at hlookup
    · next heq =>
      obtain rfl := eq_of_beq heq
      obtain rfl := Option.some.inj hlookup
      exact ⟨hx.atom, v, hvalue, List.lookup_cons_self ..⟩
    · obtain ⟨hatom, w, hw, hname⟩ := h.literals key name hlookup
      have hne : name ≠ ctx.freshName.1 := by
        rintro rfl
        rw [hunknown] at hname
        cases hname
      refine ⟨hatom, w, hw, ?_⟩
      rw [List.lookup_cons, beq_false_of_ne hne]
      exact hname
  · refine List.forall_mem_append.mpr ⟨fun y hy hsome => ?_, List.forall_mem_singleton.mpr ?_⟩
    · rw [List.lookup_cons]
      split
      · rfl
      · exact h.value y hy hsome
    · rw [List.lookup_cons_self]
      exact fun _ => rfl
  · refine List.forall_mem_append.mpr ⟨h.name, List.forall_mem_singleton.mpr fun hnone => ?_⟩
    rw [hvalue] at hnone
    cases hnone
  · intro y hy
    exact ⟨List.mem_append_left _ (h.found y hy).1, (h.found y hy).2⟩

end Sorted

theorem constant?_start (src : Text) (symbols : List (Text × Symbol)) (counter : Nat) {key : Text}
    (h : key ∉ constantNames) :
    ({ start src with symbols, counter } : Context).constant? key = none := by
  have hlookup : (start src).constants.lookup key = none := by
    by_contra hsome
    refine h ?_
    have := mem_map_fst_of_lookup (Option.ne_none_iff_isSome.mp hsome)
    simpa [start, constantNames] using this
  simp only [constant?, hlookup]
  rfl

/-- Before anything is sorted out, the constants are the named ones. -/
theorem sorted_start {f : Family} {src : Text} {table : List (Text × Symbol)}
    (hfresh : ∀ key ∈ table.map Prod.fst,
      key = [] ∨ Text.contains key src = false ∧ key ∉ constantNames) (counter : Nat) :
    Sorted f src table [] [] { start src with symbols := table, counter } := by
  have hnames : ∀ name ∈ constantNames, name ≠ [] ∧ name.all isWordChar = true := by
    decide
  refine ⟨rfl, rfl, rfl, rfl, rfl, fun key hkey => (hfresh key hkey).imp_right And.left,
    fun key hkey => constant?_start src table counter fun hmem => ?_, fun key hkey => ?_,
    by simp [start], by simp, by simp, List.nodup_nil, by simp, by simp⟩
  · rcases hfresh key hkey with rfl | ⟨-, hnot⟩
    · exact (hnames [] hmem).1 rfl
    · exact hnot hmem
  · have hkey : key ∈ constantNames := by simpa [start, constantNames] using hkey
    exact ⟨(hnames key hkey).1, List.all_eq_true.mp (hnames key hkey).2, .inl hkey⟩

/-- An atom that is no literal may name a parameter. -/
theorem isIdentifier_of_value? {f : Family} {x : Text} (h : f.isAtom x = true)
    (hvalue : f.value? x = none) : isIdentifier x = true := by
  rcases Family.atom_cases h with ⟨c, rest, rfl, hc, hrest⟩ | ⟨hne, hdigits, rfl, hsize⟩
  · rw [isIdentifier, Bool.and_eq_true, List.all_eq_true]
    exact ⟨hc, fun d hd => isIdentifierChar_of_isWordChar (hrest d hd)⟩
  · have hinteger : isPlainInteger x = true := by
      simp only [isPlainInteger, Bool.and_eq_true, decide_eq_true_eq, List.all_eq_true]
      exact ⟨⟨hne, hdigits⟩, hsize⟩
    simp [Family.value?, hinteger] at hvalue

/-- Sorting out atoms keeps the invariant, and all of them are done in the end. Names of symbols
among them are passed over. -/
theorem classify_sorted {f : Family} {src : Text} {table : List (Text × Symbol)}
    {operands done : List Text} {found : List (Nat × Text)} {ctx : Context}
    (hoperands : ∀ x ∈ operands, x ∈ table.map Prod.fst ∨ StandsIn f src x)
    (h : Sorted f src table done found ctx) :
    ∃ found' ctx', classify Registry.standard operands found ctx = .ok (found', ctx') ∧
      Sorted f src table (done ++ operands.filter (· ∉ table.map Prod.fst)) found' ctx' := by
  induction operands generalizing done found ctx with
  | nil => exact ⟨found, ctx, rfl, by rwa [List.filter_nil, List.append_nil]⟩
  | cons x rest ih =>
    obtain ⟨hx, hrest⟩ := List.forall_mem_cons.mp hoperands
    by_cases hsymbol : x ∈ table.map Prod.fst
    · have hknown : ctx.isKnown x = true := by
        have hsome : (ctx.symbol? x).isSome := by
          obtain ⟨entry, hentry, heq⟩ := List.mem_map.mp hsymbol
          rw [symbol?, h.symbols, List.lookup_isSome_iff]
          exact ⟨entry, hentry, by simp [heq]⟩
        simp [isKnown, hsome]
      rw [classify, if_pos (by simp [hknown]), List.filter_cons_of_neg (by simpa using hsymbol)]
      exact ih hrest h
    have hx := hx.resolve_left hsymbol
    rw [List.filter_cons_of_pos (by simpa using hsymbol), List.append_cons]
    rw [classify]
    split
    · next hknown =>
      refine ih hrest (h.again hx ?_)
      rcases Bool.or_eq_true_iff.mp hknown with hknown | hfound
      · exact .inl hknown
      · obtain ⟨⟨place, name⟩, hmem, heq⟩ := List.any_eq_true.mp hfound
        exact .inr (List.mem_map.mpr ⟨_, hmem, eq_of_beq heq⟩)
    · next hunknown =>
      have hctx : { ctx with cancelled := ctx.cancelled || false } = ctx := by rw [Bool.or_false]
      rw [Family.parse_atom hx.atom]
      dsimp only
      rw [hctx]
      cases hvalue : f.value? x with
      | some v =>
        have hnew : ctx.literals.lookup x = none := by
          rw [h.isKnown_atom hx] at hunknown
          simp only [Bool.or_eq_true, not_or, Bool.not_eq_true, Option.isSome_eq_false_iff,
            Option.isNone_iff_eq_none] at hunknown
          exact hunknown.1
        exact ih hrest (h.intern hx hvalue hnew)
      | none =>
        obtain ⟨before, after, hsource, hbefore, hafter⟩ := hx.alone
        have hword := Text.isSome_firstWord? (Family.atom_ne_nil hx.atom) (fun c hc =>
          isIdentifierChar_of_isWordChar (Family.isWordChar_of_mem_atom hx.atom hc)) hbefore hafter
        rw [← hsource] at hword
        obtain ⟨place, hplace⟩ := Option.isSome_iff_exists.mp hword
        dsimp only
        rw [h.unquoted, hplace]
        dsimp only
        rw [if_pos (isIdentifier_of_value? hx.atom hvalue)]
        refine ih hrest (h.find hvalue (fun hmem => hunknown ?_) hplace)
        obtain ⟨entry, hentry, heq⟩ := List.mem_map.mp hmem
        exact Bool.or_eq_true_iff.mpr (.inr (List.any_eq_true.mpr ⟨entry, hentry, beq_iff_eq.mpr heq⟩))

/-- The parameters are those found, each of any type. -/
theorem mem_orderedParameters {found : List (Nat × Text)} {p : Parameter} :
    p ∈ orderedParameters found ↔
      p.supported = TypeMask.all ∧ p.name.toList ∈ found.map Prod.snd := by
  simp only [orderedParameters, List.mem_map, List.mem_mergeSort]
  constructor
  · rintro ⟨entry, hentry, rfl⟩
    exact ⟨rfl, entry, hentry, (String.toList_ofList ..).symm⟩
  · rintro ⟨hall, entry, hentry, heq⟩
    refine ⟨entry, hentry, ?_⟩
    rw [heq, String.ofList_toList, ← hall]

/-! ### The stages -/

/-- The names of the symbols that are no calls, in their order. -/
def plainKeys (ctx : Context) : List Text :=
  (ctx.sortedSymbols.filter fun p => !p.2.isCall).map Prod.fst

theorem flattenGroups_eq (opening closing : Text) (ctx : Context) :
    ctx.flattenGroups opening closing = flattenSymbols opening closing ctx.plainKeys ctx := rfl

theorem callOperands_eq {tokens : CallTokens} {text inner : Text}
    (h : ((Text.cut? tokens.opening text).bind fun p => Text.before? tokens.closing p.2) =
      some inner) :
    callOperands tokens text = (Text.splitAll tokens.separator inner).filter (· ≠ []) := by
  rw [callOperands]
  split
  · next inner' h' =>
    obtain rfl := Option.some.inj (h'.symm.trans h)
    rfl
  · next h' => exact absurd (h'.symm.trans h) (by simp)

/-- The operands of all symbols, in the order of the names of the symbols. -/
def tableOperands (tokens : CallTokens) (ctx : Context) : List Text :=
  ctx.sortedSymbols.flatMap fun p => symbolOperands tokens p.2

theorem populate_eq (tokens : CallTokens) (registry : Registry) (ctx : Context) :
    ctx.populate tokens registry =
      (classify registry ((ctx.markSymbols tokens.markers).tableOperands tokens) []
        (ctx.markSymbols tokens.markers)).map fun p =>
          { p.2 with params := orderedParameters p.1 } := by
  change (classify registry ((ctx.markSymbols tokens.markers).tableOperands tokens) []
    (ctx.markSymbols tokens.markers) >>= _) = _
  cases classify registry ((ctx.markSymbols tokens.markers).tableOperands tokens) []
    (ctx.markSymbols tokens.markers) <;> rfl

theorem findCall?_eq_none {opening text : Text} {c : Char} (hc : c ∈ opening) (h : c ∉ text) :
    findCall? opening text = none := by
  rw [findCall?, Text.cuts_eq_nil hc h]
  rfl

theorem extractCallsFrom_done {tokens : CallTokens} {whole rest : Text} {ctx : Context}
    (hfind : findCall? tokens.opening rest = none) :
    extractCallsFrom tokens whole rest ctx = .ok (rest, ctx) := by
  rw [extractCallsFrom]
  split
  · rfl
  · next hsome => cases hfind.symm.trans hsome

theorem flatten?_eq_self {opening closing text : Text} {c d : Char} (hc : c ∈ opening)
    (hd : d ∈ closing) (hopening : c ∉ text) (hclosing : d ∉ text) (ctx : Context) :
    flatten? opening closing text ctx = some (.ok (text, ctx)) := by
  have hstep : flattenStep opening closing text ctx = none := by
    rw [flattenStep, Text.cutLast?_eq_none hc hopening]
    rfl
  rw [flatten?, hstep]
  simp [Text.contains_eq_false hd hclosing]

theorem flattenText_eq_self {opening closing text : Text} {c d : Char} (hc : c ∈ opening)
    (hd : d ∈ closing) (hopening : c ∉ text) (hclosing : d ∉ text) (ctx : Context) :
    flattenText opening closing text ctx = .ok (text, ctx) := by
  rw [flattenText, flatten?_eq_self hc hd hopening hclosing]
  rfl

/-- What the tables know about the atoms of a chain: literals are constants, all other atoms are
parameters of any type, each once, and nothing else is either. -/
structure Prepared (f : Family) (pieces : List Piece) (ctx : Context) : Prop where
  cancelled : ctx.cancelled = false
  symbols : ctx.symbols = [(mainName, { text := Piece.textAll pieces, isCall := false })]
  literal : ∀ x v, Piece.atom x ∈ pieces → f.value? x = some v → ctx.constant? x = some ⟨v, x⟩
  name : ∀ x, Piece.atom x ∈ pieces → f.value? x = none →
    ctx.constant? x = none ∧ String.ofList x ∈ ctx.params.map Parameter.name
  composite : ∀ key, (key = [] ∨ ∃ c ∈ key, isWordChar c = false) → ctx.constant? key = none
  params : ∀ p ∈ ctx.params, Piece.atom p.name.toList ∈ pieces ∧ f.value? p.name.toList = none ∧
    p.supported = TypeMask.all
  distinct : (ctx.params.map Parameter.name).Nodup

end Context

open Context in
/-- A text without calls is resolved by taking its groups out, and sorting out the operands. -/
theorem Compiler.resolve_of_groups (style : Precedence) {text text' : Text} {ctx ctx' : Context}
    (hne : text ≠ []) (hcancelled : ctx.cancelled = false) (hsymbols : ctx.symbols = [])
    (hcalls : findCall? ['('] text = none)
    (hgroups : flattenText ['('] [')'] text { ctx with symbols := [(mainName, ⟨text, false⟩)] } =
      .ok (text', ctx')) :
    (common style).resolve text ctx =
      (ctx'.setText mainName text').populate (common style).tokens Registry.standard := by
  have hopening : (common style).tokens.opening = ['('] := by cases style <;> decide
  have hclosing : (common style).tokens.closing = [')'] := by cases style <;> decide
  have hcalls (ctx : Context) : ctx.extractCalls (common style).tokens text = .ok (text, ctx) :=
    extractCallsFrom_done (by rwa [hopening])
  have hgroups : ({ ctx with symbols := [(mainName, ⟨text, false⟩)] } : Context).flattenGroups
      (common style).tokens.opening (common style).tokens.closing =
        .ok (ctx'.setText mainName text') := by
    have hkeys : ({ ctx with symbols := [(mainName, ⟨text, false⟩)] } : Context).plainKeys =
        [mainName] := by
      rw [plainKeys, sortedSymbols, List.mergeSort_singleton]
      rfl
    have hsymbol : ({ ctx with symbols := [(mainName, ⟨text, false⟩)] } : Context).symbol? mainName =
        some ⟨text, false⟩ := rfl
    rw [flattenGroups_eq, hkeys, flattenSymbols, hsymbol]
    dsimp only
    rw [hopening, hclosing, hgroups]
    rfl
  have hcheck : check ctx = .ok () := by
    rw [check, hcancelled]
    rfl
  rw [resolve, if_neg hne, hcheck, hsymbols]
  change (({ ctx with symbols := [(mainName, ⟨text, false⟩)] } : Context).extractCalls
    (common style).tokens text >>= fun p =>
      (p.2.setText mainName p.1).flattenGroups (common style).tokens.opening
        (common style).tokens.closing >>= fun ctx =>
          ctx.populate (common style).tokens Registry.standard) = _
  rw [hcalls]
  exact congrArg (· >>= fun ctx => ctx.populate (common style).tokens Registry.standard) hgroups

/-- A text without parentheses is the main symbol as it is. -/
theorem Compiler.resolve_flat {style : Precedence} {text : Text} {ctx : Context} (hne : text ≠ [])
    (hopen : '(' ∉ text) (hclose : ')' ∉ text) (hcancelled : ctx.cancelled = false)
    (hsymbols : ctx.symbols = []) :
    (common style).resolve text ctx =
      ({ ctx with symbols := [(Context.mainName, ⟨text, false⟩)] } : Context).populate
        (common style).tokens Registry.standard :=
  resolve_of_groups style hne hcancelled hsymbols
    (Context.findCall?_eq_none (List.mem_singleton_self _) hopen)
    (Context.flattenText_eq_self (List.mem_singleton_self _) (List.mem_singleton_self _) hopen hclose _)

namespace IsChain

variable {f : Family} {pieces : List Piece} (h : IsChain f pieces)
include h

/-- The atoms of a chain stand alone: operators are around them. -/
theorem standsIn {x : Text} (hx : Piece.atom x ∈ pieces) :
    Context.StandsIn f (Piece.textAll pieces) x := by
  obtain ⟨u, v, rfl⟩ := List.append_of_mem hx
  obtain ⟨hu, hv⟩ := Family.follow_around_atom h.follow
  refine ⟨h.atoms x hx, Piece.textAll u, Piece.textAll v, by simp [Piece.text], ?_, ?_⟩
  · exact fun c hc =>
      Family.isIdentifierChar_of_mem_marks (Family.getLast?_of_follow_true hu hc)
  · exact fun c hc =>
      Family.isIdentifierChar_of_mem_marks (Family.head?_of_follow_false hv hc)

theorem populate (ctx : Context)
    (hsorted : Context.Sorted f (Piece.textAll pieces)
      [(Context.mainName, { text := Piece.textAll pieces, isCall := false })] [] [] ctx)
    (style : Precedence) :
    ∃ ctx', ctx.populate (Compiler.common style).tokens Registry.standard = .ok ctx' ∧
      ctx'.Prepared f pieces := by
  have hcomparison : ∀ c ∈ ['=', '<', '>'], c ∉ f.marks ∧ isWordChar c = false := by
    simp only [List.forall_mem_cons, List.not_mem_nil, false_imp_iff, implies_true, and_true]
    cases f <;> decide
  have hmark : Markers.common.mark (Piece.textAll pieces) = Piece.textAll pieces :=
    Markers.mark_eq_self fun c hc => h.not_mem (hcomparison c hc).1 (hcomparison c hc).2
  have hmarked : ctx.markSymbols Markers.common = ctx := by
    obtain ⟨_, _, _, _, _, _, _, _⟩ := ctx
    obtain rfl := hsorted.symbols
    simp [Context.markSymbols, hmark]
  have hoperands : ctx.tableOperands (Compiler.common style).tokens =
      pieces.filterMap Piece.atom? := by
    rw [Context.tableOperands, Context.sortedSymbols, hsorted.symbols, List.mergeSort_singleton,
      List.flatMap_singleton]
    exact Markers.operands_textAll h.follow h.atoms
  have hmem {x : Text} : x ∈ pieces.filterMap Piece.atom? ↔ Piece.atom x ∈ pieces := by
    rw [List.mem_filterMap]
    constructor
    · rintro ⟨_ | y, hmem, heq⟩
      · cases heq
      · exact Option.some.inj heq ▸ hmem
    · exact fun hmem => ⟨_, hmem, rfl⟩
  obtain ⟨found, ctx', hclassify, hdone⟩ := Context.classify_sorted
    (fun x hx => .inr (h.standsIn (hmem.mp hx))) hsorted
  rw [List.nil_append, List.filter_eq_self.mpr fun x hx => by
    simpa using hsorted.not_mem_table (h.standsIn (hmem.mp hx))] at hdone
  refine ⟨{ ctx' with params := Context.orderedParameters found }, ?_, ?_⟩
  · rw [Context.populate_eq, Compiler.markers_common, hmarked, hoperands, hclassify]
    rfl
  · refine ⟨hdone.cancelled, hdone.symbols, ?_, ?_, fun key hkey => hdone.constant?_eq_none hkey,
      ?_, ?_⟩
    · intro x v hx hvalue
      exact hdone.constant?_literal (h.standsIn hx) (hmem.mpr hx) hvalue
    · intro x hx hvalue
      refine ⟨hdone.constant?_name (h.standsIn hx) hvalue,
        List.mem_map.mpr ⟨⟨String.ofList x, TypeMask.all⟩, ?_, rfl⟩⟩
      rw [Context.mem_orderedParameters, String.toList_ofList]
      exact ⟨rfl, hdone.name x (hmem.mpr hx) hvalue⟩
    · intro p hp
      obtain ⟨hall, hname⟩ := Context.mem_orderedParameters.mp hp
      exact ⟨hmem.mp (hdone.found _ hname).1, (hdone.found _ hname).2, hall⟩
    · have hnodup : ((found.map Prod.snd).map String.ofList).Nodup :=
        List.Pairwise.map _ (fun a b hne heq => hne (String.ofList_injective heq)) hdone.distinct
      rw [List.map_map] at hnodup
      rw [Context.orderedParameters, List.map_map]
      exact ((List.mergeSort_perm found _).map _).nodup_iff.mpr hnodup

theorem resolve (style : Precedence) :
    ∃ ctx, (Compiler.common style).resolve (Piece.textAll pieces)
        (Context.start (Piece.textAll pieces)) = .ok ctx ∧ ctx.Prepared f pieces := by
  have hopen : '(' ∉ Piece.textAll pieces := h.not_mem (by cases f <;> decide) (by decide)
  have hclose : ')' ∉ Piece.textAll pieces := h.not_mem (by cases f <;> decide) (by decide)
  obtain ⟨ctx', hpopulate, hprepared⟩ :=
    h.populate _ (Context.sorted_start (by simp [Context.mainName]) 0) style
  refine ⟨ctx', ?_, hprepared⟩
  rw [Compiler.resolve_flat h.textAll_ne_nil hopen hclose rfl rfl]
  exact hpopulate

end IsChain

end Formula
