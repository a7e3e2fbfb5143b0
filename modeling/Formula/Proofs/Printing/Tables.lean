import Formula.Proofs.Compile.Ordering
import Formula.Proofs.Printing.Groups

/-!
# The tables of a printed expression

When all groups have been taken out, a symbol is one name, a negation, an operator with two names,
or a call on names. Sorting out these names makes the integers constants and the parameters
parameters, and leaves the names of symbols. The parameters are put in the order in which they
occur in the source; since every parameter of the expression is an operand of some symbol, they are
its parameters without repetitions.

## Main definitions

* `Form`: the forms of symbols without groups.
* `Context.Resolves`: what the tables know about an operand.
* `Context.Ready`: what the tables know about the symbols.

## Main results

* `Form.symbolOperands_symbol`: the operands of a symbol are those of its form.
* `Context.names_orderedParameters`: the order of the parameters.
* `Phrase.IsPlain.resolve`: a printed expression gets through to the tables.
-/

namespace Formula

open Text

/-! ### Symbols without groups -/

/-- The forms of symbols without groups. -/
inductive Form where
  | name (x : Text)
  | negation (a : Text)
  | operation (op : Operation) (a b : Text)
  | call (f : Function) (operands : List Text)

namespace Form

/-- The symbol of a form. -/
def symbol : Form → Symbol
  | name x => ⟨x, false⟩
  | negation a => ⟨'-' :: a, false⟩
  | operation op a b => ⟨a ++ op.mark :: b, false⟩
  | call f operands => ⟨Context.CallTokens.common.call f.name.toList operands, true⟩

/-- The names in a form. -/
def operands : Form → List Text
  | name x => [x]
  | negation a => [a]
  | operation _ a b => [a, b]
  | call _ operands => operands

/-- The expression of a form, where names stand for expressions. -/
def phrase (g : Text → Phrase) : Form → Phrase
  | name x => g x
  | negation a => .negate (g a)
  | operation op a b => .binary op (g a) (g b)
  | call f operands => .call f (operands.map g)

/-- The operator is arithmetic, and a function has as many operands as it takes. -/
def IsProper : Form → Prop
  | name _ | negation _ => True
  | operation op _ _ => op ∈ Family.arithmetic.operations
  | call f operands => f ∈ Phrase.functions ∧ operands.length = f.arity

/-- A text that may stand as an operand. -/
structure IsWord (x : Text) : Prop where
  ne_nil : x ≠ []
  word : ∀ c ∈ x, isWordChar c = true

theorem IsWord.not_mem {x : Text} (h : IsWord x) {c : Char} (hc : isWordChar c = false) : c ∉ x :=
  fun hmem => by
    rw [h.word c hmem] at hc
    cases hc

/-- The parameters of an expression are those of its operands. -/
theorem parameters_phrase (g : Text → Phrase) (form : Form) :
    (form.phrase g).parameters = form.operands.flatMap fun x => (g x).parameters := by
  cases form with
  | name x => simp [phrase, operands]
  | negation a => simp [phrase, operands, Phrase.parameters]
  | operation op a b => simp [phrase, operands, Phrase.parameters]
  | call f names => simp [phrase, operands, Phrase.parameters, List.flatMap_map]

/-- The operands of a symbol are those of its form. -/
theorem symbolOperands_symbol {form : Form} (h : form.IsProper)
    (hwords : ∀ x ∈ form.operands, IsWord x) :
    Context.symbolOperands .common form.symbol = form.operands := by
  have hword {x : Text} (hx : IsWord x) (text : Text) :
      Markers.common.operandsFrom 0 (x ++ text) =
        (Markers.common.operandsFrom 0 text).modifyHead (x ++ ·) :=
    Markers.operandsFrom_append (fun c hc => isBareChar_of_isWordChar (hx.word c hc)) text
  have hend {x : Text} (hx : IsWord x) : Markers.common.operandsFrom 0 x = [x] := by
    simpa [Markers.operandsFrom] using hword hx []
  cases form with
  | name x =>
    have hx := hwords x (List.mem_singleton_self x)
    change Markers.common.operands x = [x]
    rw [Markers.operands, hend hx]
    simp [hx.ne_nil]
  | negation a =>
    have ha := hwords a (List.mem_singleton_self a)
    change Markers.common.operands ('-' :: a) = [a]
    rw [Markers.operands, Markers.operandsFrom_mark (f := .arithmetic) (by decide), hend ha]
    simp [ha.ne_nil]
  | operation op a b =>
    have ha := hwords a (List.mem_cons_self ..)
    have hb := hwords b (List.mem_cons_of_mem _ (List.mem_singleton_self b))
    change Markers.common.operands (a ++ op.mark :: b) = [a, b]
    rw [Markers.operands, hword ha, Markers.operandsFrom_mark (Family.mark_mem_marks h), hend hb]
    simp [ha.ne_nil, hb.ne_nil]
  | call f names =>
    obtain ⟨hf, hcount⟩ := h
    have hopen : '(' ∉ f.name.toList := fun hmem => by cases Phrase.isWordChar_of_mem_name hf hmem
    have hne : names ≠ [] := by
      rintro rfl
      exact absurd hcount.symm (Nat.ne_of_gt (Phrase.arity_pos hf))
    have hsplit : splitAll [','] ([','].intercalate names) = names :=
      splitAll_intercalate hne fun x hx => (hwords x hx).not_mem (by decide)
    have hinner : ((cut? ['('] (f.name.toList ++ '(' :: ([','].intercalate names ++ [')']))).bind
        fun p => before? [')'] p.2) = some ([','].intercalate names) := by
      rw [cut?_append_cons hopen, Option.bind_some, before?_append_singleton]
    change Context.callOperands .common (Context.CallTokens.common.call f.name.toList names) = names
    rw [Context.CallTokens.call_common, Context.callOperands_eq hinner]
    change (splitAll [','] ([','].intercalate names)).filter (· ≠ []) = names
    rw [hsplit, List.filter_eq_self]
    exact fun x hx => decide_eq_true (hwords x hx).ne_nil

/-- Nothing in a symbol is marked. -/
theorem mark_symbol {form : Form} (h : form.IsProper) (hwords : ∀ x ∈ form.operands, IsWord x)
    (hcall : form.symbol.isCall = false) :
    Markers.common.mark form.symbol.text = form.symbol.text := by
  refine Markers.mark_eq_self fun c hc => ?_
  have hword : isWordChar c = false := by
    simp only [List.mem_cons, List.not_mem_nil, or_false] at hc
    rcases hc with rfl | rfl | rfl <;> decide
  have hmark : c ∉ Family.arithmetic.marks := by
    simp only [List.mem_cons, List.not_mem_nil, or_false] at hc
    rcases hc with rfl | rfl | rfl <;> decide
  cases form with
  | name x => exact (hwords x (List.mem_singleton_self x)).not_mem hword
  | negation a =>
    have ha := (hwords a (List.mem_singleton_self a)).not_mem hword
    have hminus : c ≠ '-' := fun heq => hmark (heq ▸ by decide)
    simp [symbol, ha, hminus]
  | operation op a b =>
    have ha := (hwords a (List.mem_cons_self ..)).not_mem hword
    have hb := (hwords b (List.mem_cons_of_mem _ (List.mem_singleton_self b))).not_mem hword
    have hop : c ≠ op.mark := fun heq => hmark (heq ▸ Family.mark_mem_marks h)
    simp [symbol, ha, hb, hop]
  | call f names => cases hcall

end Form

namespace Context

/-- A symbol without groups has a form, whose operands have lower ranks. -/
theorem Means.exists_form {src key : Text} {ctx : Context} {g : Glossary} {s : Symbol}
    (h : Means src ctx g s (g.phrase key) (g.rank key))
    (hflat : s.isCall = false → '(' ∉ s.text) :
    ∃ form : Form, s = form.symbol ∧ form.IsProper ∧ g.phrase key = form.phrase g.phrase ∧
      ∀ x ∈ form.operands, IsOperand src ctx x ∧ g.rank x < g.rank key := by
  generalize hphrase : g.phrase key = e at h
  generalize g.rank key = n at h ⊢
  cases h with
  | @tree t n ht hlt =>
    cases ht with
    | @atom x hx =>
      exact ⟨.name x, rfl, trivial, rfl, List.forall_mem_singleton.mpr ⟨hx, hlt⟩⟩
    | prefixed _ => exact absurd (List.mem_cons_self ..) (hflat rfl)
    | infixed _ _ _ => exact absurd (List.mem_cons_self ..) (hflat rfl)
  | @negation a n ha hlt =>
    exact ⟨.negation a, rfl, trivial, rfl, List.forall_mem_singleton.mpr ⟨ha, hlt⟩⟩
  | @operation op a b n hop ha hb hlt =>
    exact ⟨.operation op a b, rfl, hop, rfl, List.forall_mem_cons.mpr
      ⟨⟨ha, hlt.1⟩, List.forall_mem_singleton.mpr ⟨hb, hlt.2⟩⟩⟩
  | @call f operands n hf hcount hoperands hlt =>
    exact ⟨.call f operands, rfl, ⟨hf, hcount⟩, rfl, fun x hx => ⟨hoperands x hx, hlt x hx⟩⟩

end Context

/-! ### The order of the parameters -/

/-- The parameters of an expression, without repetitions, are in the order of their places. -/
theorem Phrase.IsPlain.pairwise_parameters {e : Phrase} (h : e.IsPlain) :
    e.parameters.eraseDups.Pairwise (Context.Precedes e.text) := by
  rw [← h.filter_words]
  refine Context.pairwise_precedes_words fun x _ hparameter c hc => ?_
  exact isIdentifierChar_of_isWordChar
    (Family.isWordChar_of_mem_atom (isAtom_parameter (Bool.and_eq_true_iff.mp hparameter).1) hc)

namespace Context

/-! ### Sorting out the operands -/

/-- What the tables know about an operand: an integer is a constant, a name is among the parameters,
and all else is the name of a symbol. -/
inductive Resolves (ctx : Context) (g : Glossary) (x : Text) : Prop
  | literal {v : Value} (hvalue : Family.arithmetic.value? x = some v)
      (hconstant : ctx.constant? x = some ⟨v, x⟩) (hphrase : g.phrase x = .literal x)
  | parameter (hconstant : ctx.constant? x = none)
      (hname : String.ofList x ∈ ctx.params.map Parameter.name)
      (hphrase : g.phrase x = .parameter x)
  | symbol (h : (ctx.symbol? x).isSome)

/-- The tables that the tree of an expression is built from. Every symbol has a form, whose operands
are known and have lower ranks. Names of symbols are neither constants nor parameters, and a text
with other characters than those of words is in no table. -/
structure Ready (g : Glossary) (ctx : Context) : Prop where
  cancelled : ctx.cancelled = false
  form : ∀ key s, ctx.symbol? key = some s → ∃ form : Form, s = form.symbol ∧ form.IsProper ∧
    g.phrase key = form.phrase g.phrase ∧
    ∀ x ∈ form.operands, Form.IsWord x ∧ ctx.Resolves g x ∧ g.rank x < g.rank key
  symbol : ∀ key, (ctx.symbol? key).isSome →
    ctx.constant? key = none ∧ String.ofList key ∉ ctx.params.map Parameter.name
  composite : ∀ key, (∃ c ∈ key, isWordChar c = false) → ctx.constant? key = none ∧
    ctx.symbol? key = none ∧ String.ofList key ∉ ctx.params.map Parameter.name
  supported : ∀ p ∈ ctx.params, p.supported = TypeMask.all

section Settled

variable {src : Text} {g : Glossary} {ctx : Context} (h : Settled src g ctx)
  (hflat : ∀ p ∈ ctx.symbols, p.2.isCall = false → '(' ∉ p.2.text)
include h

theorem Settled.isWord {x : Text} (hx : IsOperand src ctx x) : Form.IsWord x :=
  ⟨Draft.operand_ne_nil hx, fun _ hc => h.isWordChar_of_mem hx hc⟩

include hflat

theorem Settled.exists_form {key : Text} {s : Symbol} (hs : ctx.symbol? key = some s) :
    ∃ form : Form, s = form.symbol ∧ form.IsProper ∧ g.phrase key = form.phrase g.phrase ∧
      symbolOperands .common s = form.operands ∧
      ∀ x ∈ form.operands, IsOperand src ctx x ∧ g.rank x < g.rank key := by
  obtain ⟨form, rfl, hproper, hphrase, hoperands⟩ := (h.means_of_symbol? hs).exists_form
    (hflat _ (mem_symbols_of_symbol? hs))
  exact ⟨form, rfl, hproper, hphrase, Form.symbolOperands_symbol hproper fun x hx =>
    h.isWord (hoperands x hx).1, hoperands⟩

/-- Nothing is marked in symbols without groups. -/
theorem Settled.markSymbols : ctx.markSymbols Markers.common = ctx := by
  have hmap : (ctx.symbols.map fun p =>
      (p.1, if p.2.isCall then p.2 else { p.2 with text := Markers.common.mark p.2.text })) =
        ctx.symbols := by
    refine (List.map_congr_left fun p hp => ?_).trans (List.map_id _)
    obtain ⟨form, hform, hproper, -, -, hoperands⟩ :=
      h.exists_form hflat (h.symbol?_eq_some_iff.mpr hp)
    dsimp only
    split
    · rfl
    · next hcall =>
      have hcall : form.symbol.isCall = false := by rw [← hform]; simpa using hcall
      rw [hform, Form.mark_symbol hproper (fun x hx => h.isWord (hoperands x hx).1) hcall, ← hform]
      rfl
  change { ctx with symbols := ctx.symbols.map fun p =>
    (p.1, if p.2.isCall then p.2 else { p.2 with text := Markers.common.mark p.2.text }) } = ctx
  rw [hmap]

/-- A parameter of an expression that a symbol stands for is an operand of some symbol. -/
theorem Settled.exists_mem_symbolOperands {key x : Text} (hkey : (ctx.symbol? key).isSome)
    (hx : x ∈ (g.phrase key).parameters) :
    ∃ p ∈ ctx.symbols, x ∈ symbolOperands .common p.2 := by
  induction hrank : g.rank key using Nat.strongRecOn generalizing key with
  | _ n ih =>
    obtain ⟨s, hs⟩ := Option.isSome_iff_exists.mp hkey
    obtain ⟨form, -, -, hphrase, hsame, hoperands⟩ := h.exists_form hflat hs
    rw [hphrase, Form.parameters_phrase, List.mem_flatMap] at hx
    obtain ⟨y, hy, hx⟩ := hx
    obtain ⟨hoperand, hlt⟩ := hoperands y hy
    rcases hoperand with hleaf | ⟨-, hsome⟩
    · rcases hleaf.kind with hinteger | hparameter
      · rw [h.literal y hleaf hinteger, Phrase.parameters] at hx
        cases hx
      · rw [h.parameter y hleaf hparameter, Phrase.parameters, List.mem_singleton] at hx
        exact ⟨_, mem_symbols_of_symbol? hs, hx ▸ hsame ▸ hy⟩
    · exact ih _ (hrank ▸ hlt) hsome hx rfl

end Settled

end Context

namespace Phrase.IsPlain

open Context

theorem mem_parameters_iff {e : Phrase} (h : e.IsPlain) {x : Text} :
    x ∈ e.parameters ↔ IsLeaf e.text x ∧ isParameter x = true := by
  rw [← h.filter_words, List.mem_filter]
  exact ⟨fun hx => ⟨⟨hx.1, .inr hx.2⟩, hx.2⟩, fun hx => ⟨hx.1.mem_words, hx.2⟩⟩

theorem value?_eq_none_iff {src x : Text} (h : IsLeaf src x) :
    Family.arithmetic.value? x = none ↔ isParameter x = true := by
  rw [Family.value?]
  rcases h.kind with hinteger | hparameter
  · simp [hinteger, isParameter_of_isPlainInteger hinteger]
  · have hnot : x.isPlainInteger = false := by
      by_contra hinteger
      rw [isParameter_of_isPlainInteger (Bool.not_eq_false _ ▸ hinteger)] at hparameter
      cases hparameter
    simp [hnot, hparameter]

/-- If the parameters of an expression have been found, they are its parameters as they occur
first. -/
theorem names_orderedParameters {e : Phrase} (h : e.IsPlain) {found : List (Nat × Text)}
    (hdistinct : (found.map Prod.snd).Nodup)
    (hplaces : ∀ p ∈ found, firstWord? p.2 e.text = some p.1)
    (hfound : ∀ x, x ∈ found.map Prod.snd ↔ x ∈ e.parameters) :
    (orderedParameters found).map Parameter.name = e.parameters.eraseDups.map String.ofList := by
  have hpairwise := pairwise_orderedParameters hdistinct hplaces fun p hp c hc => by
    have hx := (h.mem_parameters_iff.mp ((hfound _).mp (List.mem_map_of_mem hp))).1
    exact isIdentifierChar_of_isWordChar (Family.isWordChar_of_mem_atom hx.isAtom hc)
  rw [← eq_of_pairwise_precedes hpairwise h.pairwise_parameters fun x => ?_]
  · simp
  · rw [List.mem_eraseDups, ← hfound, List.mem_map]
    constructor
    · rintro ⟨p, hp, rfl⟩
      exact (mem_orderedParameters.mp hp).2
    · intro hx
      refine ⟨⟨String.ofList x, TypeMask.all⟩, mem_orderedParameters.mpr ⟨rfl, ?_⟩,
        String.toList_ofList ..⟩
      rwa [String.toList_ofList]

/-- The tables are ready when the leaves among the operands have been sorted out and the parameters
are those of the expression. -/
theorem ready {e : Phrase} (he : e.IsPlain) {g : Glossary} {ctx ctx' : Context}
    (h : Settled e.text g ctx) (hflat : ∀ p ∈ ctx.symbols, p.2.isCall = false → '(' ∉ p.2.text)
    {done : List Text} {found : List (Nat × Text)}
    (hsorted : Sorted .arithmetic e.text ctx.symbols done found ctx')
    (hdone : ∀ p ∈ ctx.symbols, ∀ x ∈ symbolOperands .common p.2, IsLeaf e.text x → x ∈ done)
    {params : List Parameter} (hsupported : ∀ p ∈ params, p.supported = TypeMask.all)
    (hnames : ∀ x, String.ofList x ∈ params.map Parameter.name ↔ x ∈ e.parameters) :
    Ready g { ctx' with params } := by
  have hsymbol (key : Text) : ({ ctx' with params } : Context).symbol? key = ctx.symbol? key := by
    rw [symbol?, hsorted.symbols, symbol?]
  refine ⟨hsorted.cancelled, fun key s hs => ?_, fun key hkey => ?_, fun key hkey => ?_, hsupported⟩
  · rw [hsymbol] at hs
    obtain ⟨form, hform, hproper, hphrase, hsame, hoperands⟩ := h.exists_form hflat hs
    refine ⟨form, hform, hproper, hphrase, fun x hx => ?_⟩
    obtain ⟨hoperand, hrank⟩ := hoperands x hx
    refine ⟨h.isWord hoperand, ?_, hrank⟩
    rcases hoperand with hleaf | ⟨-, hsome⟩
    · cases hvalue : Family.arithmetic.value? x with
      | some v =>
        have hx := hdone _ (mem_symbols_of_symbol? hs) x (hsame ▸ hx) hleaf
        refine .literal hvalue (hsorted.constant?_literal hleaf.standsIn hx hvalue)
          (h.literal x hleaf ?_)
        by_contra hinteger
        simp [Family.value?, hinteger] at hvalue
      | none =>
        have hparameter := (value?_eq_none_iff hleaf).mp hvalue
        exact .parameter (hsorted.constant?_name hleaf.standsIn hvalue)
          ((hnames x).mpr (he.mem_parameters_iff.mpr ⟨hleaf, hparameter⟩))
          (h.parameter x hleaf hparameter)
    · exact .symbol (by rwa [hsymbol])
  · rw [hsymbol] at hkey
    exact ⟨hsorted.apart key (isSome_symbol?_iff.mp hkey), fun hmem =>
      h.not_isLeaf hkey (he.mem_parameters_iff.mp ((hnames key).mp hmem)).1⟩
  · obtain ⟨c, hc, hword⟩ := hkey
    refine ⟨hsorted.constant?_eq_none (.inr ⟨c, hc, hword⟩), ?_, fun hmem => ?_⟩
    · by_contra hsome
      rw [hsymbol, ← ne_eq, ← Option.isSome_iff_ne_none] at hsome
      rw [h.isWordChar_of_symbol? hsome hc] at hword
      cases hword
    · have hleaf := (he.mem_parameters_iff.mp ((hnames key).mp hmem)).1
      rw [Family.isWordChar_of_mem_atom hleaf.isAtom hc] at hword
      cases hword

/-- Sorting out the operands of a printed expression makes the tables ready. -/
theorem populate {e : Phrase} (he : e.IsPlain) {g : Glossary} {ctx : Context}
    (h : Settled e.text g ctx) (hflat : ∀ p ∈ ctx.symbols, p.2.isCall = false → '(' ∉ p.2.text)
    (hmain : (ctx.symbol? mainName).isSome) (hphrase : g.phrase mainName = e) :
    ∃ ctx', ctx.populate .common Registry.standard = .ok ctx' ∧ Ready g ctx' ∧
      (ctx'.symbol? mainName).isSome ∧
      ctx'.params.map Parameter.name = e.parameters.eraseDups.map String.ofList := by
  let operands := ctx.tableOperands .common
  have hmem {x : Text} : x ∈ operands ↔ ∃ p ∈ ctx.symbols, x ∈ symbolOperands .common p.2 := by
    simp [operands, tableOperands, sortedSymbols, List.mem_flatMap]
  have hoperand {x : Text} (hx : x ∈ operands) : IsOperand e.text ctx x := by
    obtain ⟨p, hp, hx⟩ := hmem.mp hx
    obtain ⟨form, -, -, -, hsame, hoperands⟩ := h.exists_form hflat (h.symbol?_eq_some_iff.mpr hp)
    exact (hoperands x (hsame ▸ hx)).1
  have hstart : Sorted .arithmetic e.text ctx.symbols [] [] ctx := by
    rw [h.eq_start]
    refine sorted_start (fun key hkey => (h.names key hkey).imp_right ?_) ctx.counter
    rintro ⟨⟨n, rfl⟩, hfree⟩
    exact ⟨hfree, generatedName_not_mem_constantNames n⟩
  have hstands (x : Text) (hx : x ∈ operands) :
      x ∈ ctx.symbols.map Prod.fst ∨ StandsIn .arithmetic e.text x :=
    (hoperand hx).symm.imp (fun hkey => isSome_symbol?_iff.mp hkey.2) IsLeaf.standsIn
  obtain ⟨found, ctx', hclassify, hsorted⟩ := classify_sorted hstands hstart
  rw [List.nil_append] at hsorted
  have hleaf {x : Text} (hx : x ∈ operands) (hx' : IsLeaf e.text x) :
      x ∈ operands.filter (· ∉ ctx.symbols.map Prod.fst) :=
    List.mem_filter.mpr ⟨hx, decide_eq_true (hstart.not_mem_table hx'.standsIn)⟩
  have hfound (x : Text) : x ∈ found.map Prod.snd ↔ x ∈ e.parameters := by
    rw [he.mem_parameters_iff]
    constructor
    · intro hx
      obtain ⟨hx, hvalue⟩ := hsorted.found x hx
      obtain ⟨hx, hkey⟩ := List.mem_filter.mp hx
      have hx' : IsLeaf e.text x := (hoperand hx).resolve_right fun hsymbol =>
        of_decide_eq_true hkey (isSome_symbol?_iff.mp hsymbol.2)
      exact ⟨hx', (value?_eq_none_iff hx').mp hvalue⟩
    · intro hx
      have hx' := he.mem_parameters_iff.mpr hx
      rw [← hphrase] at hx'
      exact hsorted.name x (hleaf (hmem.mpr (h.exists_mem_symbolOperands hflat hmain hx')) hx.1)
        ((value?_eq_none_iff hx.1).mpr hx.2)
  have hnames := he.names_orderedParameters hsorted.distinct hsorted.places hfound
  refine ⟨{ ctx' with params := orderedParameters found }, ?_, he.ready h hflat hsorted
    (fun p hp x hx hx' => hleaf (hmem.mpr ⟨p, hp, hx⟩) hx')
    (fun p hp => (mem_orderedParameters.mp hp).1) (fun x => ?_), ?_, hnames⟩
  · rw [Context.populate_eq, show CallTokens.common.markers = Markers.common from rfl,
      h.markSymbols hflat, hclassify]
    rfl
  · rw [hnames, List.mem_map_of_injective fun _ _ => String.ofList_injective, List.mem_eraseDups]
  · rwa [symbol?, hsorted.symbols]

/-- A printed expression gets through to the tables: the main symbol stands for it, and the
parameters are its parameters as they occur first. -/
theorem resolve {e : Phrase} (h : e.IsPlain) (style : Precedence) :
    ∃ ctx g, (Compiler.common style).resolve e.text (start e.text) = .ok ctx ∧ Ready g ctx ∧
      (ctx.symbol? mainName).isSome ∧ g.phrase mainName = e ∧
      ctx.params.map Parameter.name = e.parameters.eraseDups.map String.ofList := by
  obtain ⟨text, ctx, ctx', g, hcalls, hgroups, hsettled, hflat, hmain, hphrase⟩ := h.flattened
  obtain ⟨ctx'', hpopulate, hready, hmain', hnames⟩ := h.populate hsettled hflat hmain hphrase
  refine ⟨ctx'', g, ?_, hready, hmain', hphrase, hnames⟩
  rw [Compiler.resolve, if_neg h.text_ne_nil, Compiler.tokens_common]
  change (extractCalls .common e.text (opened e.text) >>= fun p =>
    ((p.2.setText mainName p.1).flattenGroups ['('] [')']) >>= fun ctx =>
      ctx.populate .common Registry.standard) = _
  rw [hcalls]
  change (((ctx.setText mainName text).flattenGroups ['('] [')']) >>= fun ctx =>
      ctx.populate .common Registry.standard) = _
  rw [hgroups]
  exact hpopulate

end Phrase.IsPlain

end Formula
