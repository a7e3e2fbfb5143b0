import Mathlib.Data.List.Nodup
import Formula.Proofs.Printing.Phrase

/-!
# Tables of symbols

While calls and groups are taken out of a printed text, the tables hold the named constants and a
growing number of symbols. The names of the symbols are generated, so they do not occur in the
source, and a new name is none of those given before. Every symbol is of one of four forms: a
printed tree, a negation, an operator with two operands, or a call on operands. An operand is a word
of the source or the name of another symbol.

What a name stands for is said by a glossary. A new symbol adds one entry and leaves all others, so
the expression a name stands for is never lost. The ranks in a glossary go down from a symbol to its
operands: no symbol leads back to itself.

## Main definitions

* `Tree.print`, `Tree.phrase`: the printed text of a tree, and the expression it stands for.
* `Glossary`: an expression and a rank for every name.
* `Context.IsOperand`, `Context.Means`: operands, and the forms of symbols with their meaning.
* `Context.Draft`: the invariant of the tables.
* `Context.Extends`: tables and a glossary with more symbols.

## Main results

* `Context.Draft.addSymbol`: a new symbol keeps the invariant and all symbols before it.
-/

namespace Formula

open Text

/-! ### Printed trees -/

namespace Tree

/-- The printed text of a tree of arithmetic operators. -/
def print : Tree → Text
  | atom x => x
  | prefixed t => '(' :: '-' :: (t.print ++ [')'])
  | infixed op l r => '(' :: (l.print ++ op.mark :: (r.print ++ [')']))

/-- The expression a tree stands for, where its atoms stand for expressions. -/
def phrase (g : Text → Phrase) : Tree → Phrase
  | atom x => g x
  | prefixed t => .negate (t.phrase g)
  | infixed op l r => .binary op (l.phrase g) (r.phrase g)

/-- The rank of a tree: one more than those of its parts. -/
def rank (g : Text → Nat) : Tree → Nat
  | atom x => g x
  | prefixed t => t.rank g + 1
  | infixed _ l r => max (l.rank g) (r.rank g) + 1

/-- The operators are arithmetic ones and all atoms satisfy `p`. -/
inductive IsOver (p : Text → Prop) : Tree → Prop
  | atom {x : Text} (h : p x) : IsOver p (atom x)
  | prefixed {t : Tree} (h : IsOver p t) : IsOver p (prefixed t)
  | infixed {op : Operation} {l r : Tree} (hop : op ∈ Family.arithmetic.operations)
      (hl : IsOver p l) (hr : IsOver p r) : IsOver p (infixed op l r)

namespace IsOver

variable {p q : Text → Prop} {t : Tree}

theorem mono (h : t.IsOver p) (hpq : ∀ x, p x → q x) : t.IsOver q := by
  induction h with
  | atom hx => exact .atom (hpq _ hx)
  | prefixed _ ih => exact .prefixed ih
  | infixed hop _ _ ihl ihr => exact .infixed hop ihl ihr

theorem phrase_congr (h : t.IsOver p) {g g' : Text → Phrase} (hg : ∀ x, p x → g' x = g x) :
    t.phrase g' = t.phrase g := by
  induction h with
  | atom hx => exact hg _ hx
  | prefixed _ ih => rw [phrase, phrase, ih]
  | infixed _ _ _ ihl ihr => rw [phrase, phrase, ihl, ihr]

theorem rank_congr (h : t.IsOver p) {g g' : Text → Nat} (hg : ∀ x, p x → g' x = g x) :
    t.rank g' = t.rank g := by
  induction h with
  | atom hx => exact hg _ hx
  | prefixed _ ih => rw [rank, rank, ih]
  | infixed _ _ _ ihl ihr => rw [rank, rank, ihl, ihr]

end IsOver

end Tree

/-- The call tokens of the common definition. -/
def Context.CallTokens.common : Context.CallTokens where
  opening := ['(']
  closing := [')']
  separator := [',']
  markers := Markers.common

theorem Context.CallTokens.call_common (name : Text) (operands : List Text) :
    CallTokens.common.call name operands =
      name ++ '(' :: ([','].intercalate operands ++ [')']) := by
  simp [call, common]

theorem Compiler.tokens_common (style : Precedence) :
    (Compiler.common style).tokens = Context.CallTokens.common := by
  have htokens : (Compiler.common style).tokens =
    ⟨"(".toList, ")".toList, ",".toList, Markers.common⟩ := rfl
  rw [htokens]
  rfl

/-- What names stand for: an expression each. A name has a higher rank than the names its expression
is put together from. -/
structure Glossary where
  phrase : Text → Phrase
  rank : Text → Nat

namespace Glossary

variable (g : Glossary)

/-- The glossary with one entry replaced. -/
def define (key : Text) (e : Phrase) (n : Nat) : Glossary where
  phrase := Function.update g.phrase key e
  rank := Function.update g.rank key n

@[simp]
theorem phrase_define (key : Text) (e : Phrase) (n : Nat) : (g.define key e n).phrase key = e := by
  simp [define]

@[simp]
theorem rank_define (key : Text) (e : Phrase) (n : Nat) : (g.define key e n).rank key = n := by
  simp [define]

theorem define_of_ne {key x : Text} (h : x ≠ key) (e : Phrase) (n : Nat) :
    (g.define key e n).phrase x = g.phrase x ∧ (g.define key e n).rank x = g.rank x := by
  simp [define, h]

end Glossary

namespace Context

/-! ### Operands and symbols -/

/-- A word of the source that is an integer or may name a parameter. -/
structure IsLeaf (src x : Text) : Prop where
  mem_words : x ∈ words src
  kind : x.isPlainInteger = true ∨ Phrase.isParameter x = true

theorem IsLeaf.isAtom {src x : Text} (h : IsLeaf src x) : Family.arithmetic.isAtom x = true := by
  rcases h.kind with hinteger | hparameter
  · exact Phrase.isAtom_literal hinteger
  · rw [Phrase.isParameter, Bool.and_eq_true] at hparameter
    exact Phrase.isAtom_parameter hparameter.1

/-- Leaves of the source stand alone in it. -/
theorem IsLeaf.standsIn {src x : Text} (h : IsLeaf src x) : StandsIn .arithmetic src x := by
  obtain ⟨before, rest, heq, hisolated⟩ := exists_of_mem_words h.mem_words
  exact ⟨h.isAtom, before, rest, heq, hisolated.left, hisolated.right⟩

/-- What may stand in a symbol as an operand: a leaf of the source, or the name of a symbol. -/
def IsOperand (src : Text) (ctx : Context) (x : Text) : Prop :=
  IsLeaf src x ∨ x ≠ mainName ∧ (ctx.symbol? x).isSome

theorem IsOperand.mono {src x : Text} {ctx ctx' : Context} (h : IsOperand src ctx x)
    (hkeys : ∀ key, (ctx.symbol? key).isSome → (ctx'.symbol? key).isSome) :
    IsOperand src ctx' x :=
  h.imp_right (And.imp_right (hkeys x))

/-- The forms of symbols, each with its meaning: a printed tree, a negation, an operator with its
operands, or a call on operands. The operands have ranks below `n`. -/
inductive Means (src : Text) (ctx : Context) (g : Glossary) : Symbol → Phrase → Nat → Prop
  | tree {t : Tree} {n : Nat} (h : t.IsOver (IsOperand src ctx)) (hrank : t.rank g.rank < n) :
      Means src ctx g ⟨t.print, false⟩ (t.phrase g.phrase) n
  | negation {a : Text} {n : Nat} (ha : IsOperand src ctx a) (hrank : g.rank a < n) :
      Means src ctx g ⟨'-' :: a, false⟩ (.negate (g.phrase a)) n
  | operation {op : Operation} {a b : Text} {n : Nat} (hop : op ∈ Family.arithmetic.operations)
      (ha : IsOperand src ctx a) (hb : IsOperand src ctx b) (hrank : g.rank a < n ∧ g.rank b < n) :
      Means src ctx g ⟨a ++ op.mark :: b, false⟩ (.binary op (g.phrase a) (g.phrase b)) n
  | call {f : Function} {operands : List Text} {n : Nat} (hf : f ∈ Phrase.functions)
      (hcount : operands.length = f.arity) (hoperands : ∀ x ∈ operands, IsOperand src ctx x)
      (hrank : ∀ x ∈ operands, g.rank x < n) :
      Means src ctx g ⟨CallTokens.common.call f.name.toList operands, true⟩
        (.call f (operands.map g.phrase)) n

theorem Means.mono {src : Text} {ctx ctx' : Context} {g g' : Glossary} {s : Symbol} {e : Phrase}
    {n : Nat} (h : Means src ctx g s e n)
    (hkeys : ∀ key, (ctx.symbol? key).isSome → (ctx'.symbol? key).isSome)
    (hagree : ∀ x, IsOperand src ctx x → g'.phrase x = g.phrase x ∧ g'.rank x = g.rank x) :
    Means src ctx' g' s e n := by
  cases h with
  | tree ht hrank =>
    rw [← ht.phrase_congr fun x hx => (hagree x hx).1]
    exact .tree (ht.mono fun _ hx => hx.mono hkeys)
      ((ht.rank_congr fun x hx => (hagree x hx).2) ▸ hrank)
  | negation ha hrank =>
    rw [← (hagree _ ha).1]
    exact .negation (ha.mono hkeys) ((hagree _ ha).2 ▸ hrank)
  | operation hop ha hb hrank =>
    rw [← (hagree _ ha).1, ← (hagree _ hb).1]
    refine .operation hop (ha.mono hkeys) (hb.mono hkeys) ?_
    rwa [(hagree _ ha).2, (hagree _ hb).2]
  | call hf hcount hoperands hrank =>
    rw [← List.map_congr_left fun x hx => (hagree x (hoperands x hx)).1]
    refine .call hf hcount (fun x hx => (hoperands x hx).mono hkeys) fun x hx => ?_
    rw [(hagree x (hoperands x hx)).2]
    exact hrank x hx

/-! ### Drafts -/

/-- The tables while symbols are taken out of a source. Apart from the symbols they are those of the
start; the main symbol is there, all others have generated names that do not occur in the source,
and they mean what the glossary says. -/
structure Draft (src : Text) (g : Glossary) (ctx : Context) : Prop where
  source : ctx.source = src
  unquoted : ctx.unquoted = src
  constants : ctx.constants = (start src).constants
  literals : ctx.literals = []
  params : ctx.params = []
  cancelled : ctx.cancelled = false
  overrun : ctx.overrun = false
  distinct : (ctx.symbols.map Prod.fst).Nodup
  names : ∀ key ∈ ctx.symbols.map Prod.fst, key = mainName ∨
    (∃ n, key = generatedName n) ∧ Text.contains key src = false
  literal : ∀ x, IsLeaf src x → x.isPlainInteger = true → g.phrase x = .literal x
  parameter : ∀ x, IsLeaf src x → Phrase.isParameter x = true → g.phrase x = .parameter x
  means : ∀ p ∈ ctx.symbols, p.1 ≠ mainName → Means src ctx g p.2 (g.phrase p.1) (g.rank p.1)

/-- Tables and a glossary with more symbols: the leaves and symbols that were there before are the
same, and so is their meaning. -/
structure Extends (src : Text) (ctx : Context) (g : Glossary) (ctx' : Context) (g' : Glossary) :
    Prop where
  symbol? : ∀ key s, ctx.symbol? key = some s → ctx'.symbol? key = some s
  agree : ∀ x, IsLeaf src x ∨ (ctx.symbol? x).isSome →
    g'.phrase x = g.phrase x ∧ g'.rank x = g.rank x

namespace Extends

variable {src : Text} {a b c : Context} {g h k : Glossary}

theorem refl (src : Text) (ctx : Context) (g : Glossary) : Extends src ctx g ctx g :=
  ⟨fun _ _ h => h, fun _ _ => ⟨rfl, rfl⟩⟩

theorem isSome_symbol? (hext : Extends src a g b h) (key : Text)
    (hkey : (a.symbol? key).isSome) : (b.symbol? key).isSome := by
  obtain ⟨s, hs⟩ := Option.isSome_iff_exists.mp hkey
  rw [hext.symbol? key s hs]
  rfl

theorem trans (hab : Extends src a g b h) (hbc : Extends src b h c k) : Extends src a g c k := by
  refine ⟨fun key s hs => hbc.symbol? key s (hab.symbol? key s hs), fun x hx => ?_⟩
  have hfirst := hab.agree x hx
  have hsecond := hbc.agree x (hx.imp_right (hab.isSome_symbol? x))
  exact ⟨hsecond.1.trans hfirst.1, hsecond.2.trans hfirst.2⟩

theorem agree_operand (hext : Extends src a g b h) (x : Text) (hx : IsOperand src a x) :
    h.phrase x = g.phrase x ∧ h.rank x = g.rank x :=
  hext.agree x (hx.imp_right And.right)

theorem isOperand (hext : Extends src a g b h) {x : Text} (hx : IsOperand src a x) :
    IsOperand src b x :=
  hx.mono hext.isSome_symbol?

theorem means (hext : Extends src a g b h) {s : Symbol} {e : Phrase} {n : Nat}
    (hs : Means src a g s e n) : Means src b h s e n :=
  hs.mono hext.isSome_symbol? hext.agree_operand

end Extends

theorem generatedName_not_mem_constantNames (n : Nat) : generatedName n ∉ constantNames := by
  have hall : ∀ name ∈ constantNames, name.head? ≠ some 'i' := by decide
  exact fun hmem => hall _ hmem rfl

theorem generatedName_ne_nil (n : Nat) : generatedName n ≠ [] := by
  simp [generatedName]

namespace Draft

variable {src : Text} {g : Glossary} {ctx : Context}

theorem symbol?_eq_some_iff (h : Draft src g ctx) {key : Text} {s : Symbol} :
    ctx.symbol? key = some s ↔ (key, s) ∈ ctx.symbols := by
  refine ⟨mem_symbols_of_symbol?, fun hmem => ?_⟩
  obtain ⟨s', hs'⟩ := Option.isSome_iff_exists.mp
    (isSome_symbol?_iff.mpr (List.mem_map_of_mem hmem))
  obtain rfl : s' = s := by
    have := List.inj_on_of_nodup_map h.distinct (mem_symbols_of_symbol? hs') hmem rfl
    exact (Prod.mk.inj this).2
  exact hs'

theorem eq_start (h : Draft src g ctx) :
    ctx = { start src with symbols := ctx.symbols, counter := ctx.counter } := by
  obtain ⟨hsource, hunquoted, hconstants, hliterals, hparams, hcancelled, hoverrun, -, -, -, -, -⟩ := h
  obtain ⟨_, _, _, _, _, _, _, _, _⟩ := ctx
  simp_all [start]

/-- Only the named constants and the symbols are known. -/
theorem isKnown_eq (h : Draft src g ctx) {key : Text} (hkey : key ∉ constantNames) :
    ctx.isKnown key = (ctx.symbol? key).isSome := by
  have hconstant : ctx.constant? key = none := by
    rw [h.eq_start]
    exact constant?_start src _ _ hkey
  rw [isKnown, hconstant, h.params]
  cases ctx.symbol? key <;> rfl

/-- Names of symbols are words. -/
theorem isWordChar_of_symbol? (h : Draft src g ctx) {key : Text} (hkey : (ctx.symbol? key).isSome)
    {c : Char} (hc : c ∈ key) : isWordChar c = true := by
  rcases h.names key (isSome_symbol?_iff.mp hkey) with rfl | ⟨⟨n, rfl⟩, -⟩
  · cases hc
  · exact Sorted.isWordChar_of_mem_generatedName hc

theorem isWordChar_of_mem (h : Draft src g ctx) {x : Text} (hx : IsOperand src ctx x) {c : Char}
    (hc : c ∈ x) : isWordChar c = true := by
  rcases hx with hleaf | ⟨-, hsome⟩
  · exact Family.isWordChar_of_mem_atom hleaf.isAtom hc
  · exact h.isWordChar_of_symbol? hsome hc

theorem operand_ne_nil {x : Text} (hx : IsOperand src ctx x) : x ≠ [] := by
  rcases hx with hleaf | ⟨hmain, -⟩
  · exact Family.atom_ne_nil hleaf.isAtom
  · exact hmain

/-- A text with a character that is none of words is not known. -/
theorem isKnown_eq_false (h : Draft src g ctx) {key : Text} {c : Char} (hc : c ∈ key)
    (hword : isWordChar c = false) : ctx.isKnown key = false := by
  have hnames : ∀ name ∈ constantNames, name.all isWordChar = true := by decide
  rw [h.isKnown_eq fun hmem => ?_]
  · by_contra hsome
    rw [h.isWordChar_of_symbol? (Bool.not_eq_false _ ▸ hsome) hc] at hword
    cases hword
  · rw [List.all_eq_true.mp (hnames _ hmem) c hc] at hword
    cases hword

/-- The name of a symbol is no leaf: leaves occur in the source. -/
theorem not_isLeaf (h : Draft src g ctx) {key : Text} (hkey : (ctx.symbol? key).isSome) :
    ¬IsLeaf src key := by
  intro hleaf
  rcases h.names key (isSome_symbol?_iff.mp hkey) with rfl | ⟨-, hnot⟩
  · exact Family.atom_ne_nil hleaf.isAtom rfl
  · rw [hleaf.standsIn.contains] at hnot
    cases hnot

/-- A new symbol has a name that no symbol had before; it keeps the invariant. -/
theorem addSymbol (h : Draft src g ctx) {text : Text} {isCall : Bool} {e : Phrase} {n : Nat}
    (hmeans : Means src ctx g ⟨text, isCall⟩ e n) :
    ∃ key ctx' g', ctx.addSymbol text isCall = (key, ctx') ∧ Draft src g' ctx' ∧
      Extends src ctx g ctx' g' ∧ key ≠ mainName ∧ g'.phrase key = e ∧ g'.rank key = n ∧
      ctx'.symbols = (key, ⟨text, isCall⟩) :: ctx.symbols := by
  have hfree := ctx.freshName_free
  simp only [isTaken, isKnown, Bool.or_eq_false_iff, h.source] at hfree
  obtain ⟨hsource, ⟨-, hsymbol⟩, -⟩ := hfree
  have hnone : ctx.symbol? ctx.freshName.1 = none := by simpa using hsymbol
  have hmain : ctx.freshName.1 ≠ mainName := generatedName_ne_nil _
  let ctx' : Context := { ctx.freshName.2 with
    symbols := (ctx.freshName.1, ⟨text, isCall⟩) :: ctx.symbols }
  let g' := g.define ctx.freshName.1 e n
  have hlookup (key : Text) : ctx'.symbol? key =
      if key = ctx.freshName.1 then some ⟨text, isCall⟩ else ctx.symbol? key := by
    change List.lookup key ((_, _) :: ctx.symbols) = _
    rw [List.lookup_cons]
    split
    · next heq => rw [if_pos (eq_of_beq heq)]
    · next hne => rw [if_neg (fun heq => by simp [heq] at hne)]; rfl
  have hleaf : ¬IsLeaf src ctx.freshName.1 := fun hleaf => by
    rw [hleaf.standsIn.contains] at hsource
    cases hsource
  have hne (x : Text) (hx : IsLeaf src x ∨ (ctx.symbol? x).isSome) : x ≠ ctx.freshName.1 := by
    rintro rfl
    rw [hnone] at hx
    exact hx.elim hleaf (by simp)
  have hext : Extends src ctx g ctx' g' := by
    refine ⟨fun key s hs => ?_, fun x hx => ?_⟩
    · rw [hlookup, if_neg (hne key (.inr (by rw [hs]; rfl))), hs]
    · exact g.define_of_ne (hne x hx) e n
  refine ⟨ctx.freshName.1, ctx', g', rfl, ?_, hext, hmain, g.phrase_define .., g.rank_define ..,
    rfl⟩
  refine ⟨h.source, h.unquoted, h.constants, h.literals, h.params, h.cancelled, h.overrun, ?_, ?_,
    fun x hx => ?_, fun x hx => ?_, ?_⟩
  · refine List.nodup_cons.mpr ⟨fun hmem => ?_, h.distinct⟩
    have hsome := isSome_symbol?_iff.mpr hmem
    rw [hnone] at hsome
    cases hsome
  · exact List.forall_mem_cons.mpr ⟨.inr ⟨⟨_, rfl⟩, hsource⟩, h.names⟩
  · rw [(hext.agree x (.inl hx)).1]
    exact h.literal x hx
  · rw [(hext.agree x (.inl hx)).1]
    exact h.parameter x hx
  · refine List.forall_mem_cons.mpr ⟨fun _ => ?_, fun p hp hp' => ?_⟩
    · rw [Glossary.phrase_define, Glossary.rank_define]
      exact hext.means hmeans
    · have hkey := hext.agree p.1 (.inr (isSome_symbol?_iff.mpr (List.mem_map_of_mem hp)))
      rw [hkey.1, hkey.2]
      exact hext.means (h.means p hp hp')

end Draft

end Context

end Formula
