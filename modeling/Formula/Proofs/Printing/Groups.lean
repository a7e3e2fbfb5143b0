import Formula.Proofs.Printing.Calls

/-!
# Taking groups out of printed trees

A printed tree is taken apart from its right end: the group that opens last has only names in it,
and becomes a symbol of its own. In the end one name is left, which stands for the whole tree. Every
symbol that is no call goes through this, and its text is replaced by the name. So all symbols are
flat in the end: one name, a negation, an operator with two names, or a call on names.

## Main definitions

* `Context.Flattened`: a printed tree has been replaced by a name.
* `Context.Settled`: the invariant of the tables, with the main symbol among the others.

## Main results

* `Context.Draft.flattened`: a printed tree is replaced by a name that stands for it.
* `Context.Settled.flattenSymbols`: the texts of symbols are replaced, one after the other.
* `Phrase.IsPlain.flattened`: the tables of a printed text.
-/

namespace Formula

open Text

namespace Context

/-! ### One tree -/

/-- The group that opens last is replaced by the name of a new symbol. -/
theorem flatten?_group {before inner rest name : Text} {ctx ctx' : Context} {c : Char}
    (hc : c ∈ inner) (hopen : '(' ∉ inner) (hclose : ')' ∉ inner) (hrest : '(' ∉ rest)
    (hknown : ctx.isKnown inner = false) (hadd : ctx.addSymbol inner false = (name, ctx')) :
    flatten? ['('] [')'] (before ++ '(' :: (inner ++ ')' :: rest)) ctx =
      flatten? ['('] [')'] (before ++ name ++ rest) ctx' := by
  have hstep : flattenStep ['('] [')'] (before ++ '(' :: (inner ++ ')' :: rest)) ctx =
      some (.ok (before ++ name ++ rest, ctx')) := by
    have hlast : '(' ∉ inner ++ ')' :: rest := by
      simp [hopen, hrest]
    rw [flattenStep, cutLast?_append_cons before hlast, Option.map_some]
    dsimp only
    rw [cut?_append_cons hclose]
    dsimp only
    rw [if_neg (List.ne_nil_of_mem hc), hknown, hadd]
    rfl
  rw [flatten?, hstep]

/-- A printed tree has been replaced by a name: it stands for the same expression, and the symbols
that are new have no groups. -/
structure Flattened (src : Text) (ctx : Context) (g : Glossary) (t : Tree) (x : Text)
    (ctx' : Context) (g' : Glossary) : Prop where
  draft : Draft src g' ctx'
  extend : Extends src ctx g ctx' g'
  isOperand : IsOperand src ctx' x
  phrase : g'.phrase x = t.phrase g.phrase
  rank : g'.rank x = t.rank g.rank
  flat : ∀ p ∈ ctx'.symbols, p ∈ ctx.symbols ∨ p.1 ≠ mainName ∧ '(' ∉ p.2.text
  run : ∀ before rest, '(' ∉ rest →
    flatten? ['('] [')'] (before ++ t.print ++ rest) ctx =
      flatten? ['('] [')'] (before ++ x ++ rest) ctx'

/-- A text of names and one operator becomes a symbol, which replaces the group around it. -/
theorem Draft.group {src inner : Text} {ctx : Context} {g : Glossary} (h : Draft src g ctx)
    {e : Phrase} {n : Nat} (hmeans : Means src ctx g ⟨inner, false⟩ e n) {c : Char} (hc : c ∈ inner)
    (hword : isWordChar c = false) (hopen : '(' ∉ inner) (hclose : ')' ∉ inner) :
    ∃ x ctx' g', Draft src g' ctx' ∧ Extends src ctx g ctx' g' ∧ IsOperand src ctx' x ∧
      g'.phrase x = e ∧ g'.rank x = n ∧
      (∀ p ∈ ctx'.symbols, p ∈ ctx.symbols ∨ p.1 ≠ mainName ∧ '(' ∉ p.2.text) ∧
      ∀ before rest, '(' ∉ rest →
        flatten? ['('] [')'] (before ++ '(' :: (inner ++ ')' :: rest)) ctx =
          flatten? ['('] [')'] (before ++ x ++ rest) ctx' := by
  obtain ⟨x, ctx', g', hadd, hdraft, hext, hmain, hphrase, hrank, hsymbols⟩ := h.addSymbol hmeans
  refine ⟨x, ctx', g', hdraft, hext, .inr ⟨hmain, ?_⟩, hphrase, hrank, ?_, fun before rest hrest =>
    flatten?_group hc hopen hclose hrest (h.isKnown_eq_false hc hword) hadd⟩
  · rw [isSome_symbol?_iff, hsymbols]
    exact List.mem_cons_self ..
  · rw [hsymbols]
    exact List.forall_mem_cons.mpr ⟨.inr ⟨hmain, hopen⟩, fun p hp => .inl hp⟩

theorem Draft.not_mem_operand {src : Text} {ctx : Context} {g : Glossary} (h : Draft src g ctx)
    {x : Text} (hx : IsOperand src ctx x) {c : Char} (hc : isWordChar c = false) : c ∉ x :=
  fun hmem => by
    rw [h.isWordChar_of_mem hx hmem] at hc
    cases hc

/-- A printed tree is replaced by a name that stands for it. The right part of an operator goes
first, because its groups open later. -/
theorem Draft.flattened {src : Text} {ctx : Context} {g : Glossary} (h : Draft src g ctx) {t : Tree}
    (ht : t.IsOver (IsOperand src ctx)) : ∃ x ctx' g', Flattened src ctx g t x ctx' g' := by
  induction t generalizing ctx g with
  | atom x =>
    cases ht with
    | atom hx =>
    exact ⟨x, ctx, g, h, .refl src ctx g, hx, rfl, rfl, fun p hp => .inl hp, fun _ _ _ => rfl⟩
  | prefixed t ih =>
    cases ht with
    | prefixed ht =>
    obtain ⟨a, ctx₁, g₁, ha⟩ := ih h ht
    have hnot {c : Char} (hc : isWordChar c = false) (hminus : c ≠ '-') : c ∉ '-' :: a := by
      simp [hminus, ha.draft.not_mem_operand ha.isOperand hc]
    obtain ⟨x, ctx₂, g₂, hdraft, hext, hx, hphrase, hrank, hflat, hrun⟩ :=
      ha.draft.group (.negation ha.isOperand (Nat.lt_succ_self _)) (List.mem_cons_self ..)
        (by decide) (hnot (by decide) (by decide)) (hnot (by decide) (by decide))
    refine ⟨x, ctx₂, g₂, hdraft, ha.extend.trans hext, hx, ?_, ?_, fun p hp => ?_,
      fun before rest hrest => ?_⟩
    · rw [hphrase, ha.phrase, Tree.phrase]
    · rw [hrank, ha.rank, Tree.rank]
    · exact (hflat p hp).elim (ha.flat p) .inr
    · have hfirst := ha.run (before ++ ['(', '-']) (')' :: rest) (by simp [hrest])
      simpa [Tree.print] using hfirst.trans (by simpa using hrun before rest hrest)
  | infixed op l r ihl ihr =>
    cases ht with
    | infixed hop hl hr =>
    obtain ⟨b, ctx₁, g₁, hb⟩ := ihr h hr
    obtain ⟨a, ctx₂, g₂, ha⟩ := ihl hb.draft (hl.mono fun x hx => hb.extend.isOperand hx)
    have hb₂ := ha.extend.isOperand hb.isOperand
    have hagree := ha.extend.agree_operand b hb.isOperand
    have hword := Phrase.isWordChar_of_mem_marks (Phrase.mark_mem_marks hop)
    have hnot {c : Char} (hc : isWordChar c = false) (hmark : op.mark ≠ c) :
        c ∉ a ++ op.mark :: b := by
      simp [ha.draft.not_mem_operand ha.isOperand hc, ha.draft.not_mem_operand hb₂ hc, hmark.symm]
    obtain ⟨x, ctx₃, g₃, hdraft, hext, hx, hphrase, hrank, hflat, hrun⟩ :=
      ha.draft.group (.operation hop ha.isOperand hb₂ (n := max (g₂.rank a) (g₂.rank b) + 1)
          ⟨by omega, by omega⟩)
        (List.mem_append_right _ (List.mem_cons_self ..)) hword
        (hnot (by decide) (Phrase.mark_ne hop).1) (hnot (by decide) (Phrase.mark_ne hop).2.1)
    have hl' := hb.extend.agree_operand
    refine ⟨x, ctx₃, g₃, hdraft, (hb.extend.trans ha.extend).trans hext, hx, ?_, ?_, fun p hp => ?_,
      fun before rest hrest => ?_⟩
    · rw [hphrase, ha.phrase, hagree.1, hb.phrase, hl.phrase_congr fun x hx => (hl' x hx).1,
        Tree.phrase]
    · rw [hrank, ha.rank, hagree.2, hb.rank, hl.rank_congr fun x hx => (hl' x hx).2, Tree.rank]
    · exact (hflat p hp).elim (fun hp => (ha.flat p hp).elim (hb.flat p) .inr) .inr
    · have hopenb := hb.draft.not_mem_operand hb.isOperand (c := '(') (by decide)
      have hright := hb.run (before ++ '(' :: (l.print ++ [op.mark])) (')' :: rest) (by simp [hrest])
      have hleft := ha.run (before ++ ['(']) (op.mark :: (b ++ ')' :: rest))
        (by simp [hopenb, hrest, (Phrase.mark_ne hop).1.symm])
      have hgroup := hrun before rest hrest
      rw [Tree.print]
      simp only [List.append_assoc, List.cons_append, List.nil_append] at hright hleft hgroup ⊢
      exact hright.trans (hleft.trans hgroup)

/-! ### All symbols -/

/-- The tables when the main symbol means what the glossary says, as all others do. -/
structure Settled (src : Text) (g : Glossary) (ctx : Context) : Prop extends Draft src g ctx where
  all : ∀ p ∈ ctx.symbols, Means src ctx g p.2 (g.phrase p.1) (g.rank p.1)

variable {src : Text} {ctx : Context} {g : Glossary}

theorem isSome_symbol?_setText {key text name : Text} :
    ((ctx.setText key text).symbol? name).isSome ↔ (ctx.symbol? name).isSome := by
  rw [isSome_symbol?_iff, isSome_symbol?_iff, setText, List.map_map]
  rfl

/-- Replacing the text of a symbol by one of the same meaning keeps the invariant. -/
theorem Draft.setText (h : Draft src g ctx) {key text : Text}
    (hmeans : ∀ p ∈ ctx.symbols, Means src ctx g (if p.1 = key then { p.2 with text } else p.2)
      (g.phrase p.1) (g.rank p.1)) : Settled src g (ctx.setText key text) := by
  have hkeys : (ctx.setText key text).symbols.map Prod.fst = ctx.symbols.map Prod.fst := by
    rw [Context.setText, List.map_map]
    rfl
  have hall : ∀ p ∈ (ctx.setText key text).symbols,
      Means src (ctx.setText key text) g p.2 (g.phrase p.1) (g.rank p.1) :=
    List.forall_mem_map.mpr fun p hp =>
      (hmeans p hp).mono (fun _ => isSome_symbol?_setText.mpr) fun _ _ => ⟨rfl, rfl⟩
  exact ⟨⟨h.source, h.unquoted, h.constants, h.literals, h.params, h.cancelled, h.overrun, hkeys ▸ h.distinct,
    hkeys ▸ h.names, h.literal, h.parameter, fun p hp _ => hall p hp⟩, hall⟩

/-- What the main symbol stands for is no concern of the others. -/
theorem Draft.define (h : Draft src g ctx) (e : Phrase) (n : Nat) :
    Draft src (g.define mainName e n) ctx := by
  have hagree (x : Text) (hx : x ≠ mainName) := g.define_of_ne hx e n
  refine ⟨h.source, h.unquoted, h.constants, h.literals, h.params, h.cancelled, h.overrun, h.distinct, h.names,
    fun x hx => ?_, fun x hx => ?_, fun p hp hne => ?_⟩
  · rw [(hagree x (Family.atom_ne_nil hx.isAtom)).1]
    exact h.literal x hx
  · rw [(hagree x (Family.atom_ne_nil hx.isAtom)).1]
    exact h.parameter x hx
  · rw [(hagree p.1 hne).1, (hagree p.1 hne).2]
    exact (h.means p hp hne).mono (fun _ hkey => hkey) fun x hx =>
      hagree x (Draft.operand_ne_nil hx)

theorem Settled.means_of_symbol? (h : Settled src g ctx) {key : Text} {s : Symbol}
    (hs : ctx.symbol? key = some s) : Means src ctx g s (g.phrase key) (g.rank key) :=
  h.all _ (mem_symbols_of_symbol? hs)

/-- A text without groups has been found for a symbol, with the same meaning. -/
structure Simplified (src : Text) (ctx : Context) (g : Glossary) (key text : Text) (ctx' : Context)
    (g' : Glossary) : Prop where
  settled : Settled src g' ctx'
  extend : Extends src ctx g ctx' g'
  means : Means src ctx' g' ⟨text, false⟩ (g.phrase key) (g.rank key)
  flat : '(' ∉ text
  others : ∀ p ∈ ctx'.symbols, p ∈ ctx.symbols ∨ '(' ∉ p.2.text

/-- A printed tree is replaced by a name; a symbol without groups stays as it is. -/
theorem Settled.simplified (h : Settled src g ctx) {key : Text} {s : Symbol}
    (hs : ctx.symbol? key = some s) (hcall : s.isCall = false) :
    ∃ text ctx' g', flattenText ['('] [')'] s.text ctx = .ok (text, ctx') ∧
      Simplified src ctx g key text ctx' g' := by
  have hself {text : Text} (hopen : '(' ∉ text) (hclose : ')' ∉ text) (ctx : Context) :
      flatten? ['('] [')'] text ctx = some (.ok (text, ctx)) :=
    flatten?_eq_self (List.mem_singleton_self _) (List.mem_singleton_self _) hopen hclose ctx
  have hmeans := h.means_of_symbol? hs
  have hflat (hopen : '(' ∉ s.text) (hclose : ')' ∉ s.text) :
      ∃ text ctx' g', flattenText ['('] [')'] s.text ctx = .ok (text, ctx') ∧
        Simplified src ctx g key text ctx' g' :=
    ⟨s.text, ctx, g, by rw [flattenText, hself hopen hclose]; rfl, h, .refl src ctx g,
      hcall ▸ hmeans, hopen, fun p hp => .inl hp⟩
  generalize hphrase : g.phrase key = e at hmeans
  generalize hrank : g.rank key = n at hmeans
  cases hmeans with
  | @tree t n ht hlt =>
    obtain ⟨x, ctx', g', hx⟩ := h.flattened ht
    have hopen := hx.draft.not_mem_operand hx.isOperand (c := '(') (by decide)
    have hclose := hx.draft.not_mem_operand hx.isOperand (c := ')') (by decide)
    refine ⟨x, ctx', g', ?_, ⟨hx.draft, fun p hp => ?_⟩, hx.extend, ?_, hopen,
      fun p hp => (hx.flat p hp).imp_right And.right⟩
    · have hrun := hx.run [] [] (by simp)
      rw [List.nil_append, List.append_nil, List.nil_append, List.append_nil,
        hself hopen hclose] at hrun
      rw [flattenText, hrun]
      rfl
    · rcases hx.flat p hp with hold | ⟨hne, -⟩
      · have hagree := hx.extend.agree p.1
          (.inr (isSome_symbol?_iff.mpr (List.mem_map_of_mem hold)))
        rw [hagree.1, hagree.2]
        exact hx.extend.means (h.all p hold)
      · exact hx.draft.means p hp hne
    · rw [hphrase, hrank, ← hx.phrase]
      exact .tree (t := .atom x) (.atom hx.isOperand)
        (Nat.lt_of_le_of_lt (Nat.le_of_eq hx.rank) hlt)
  | negation ha _ =>
    exact hflat (by simp [h.not_mem_operand ha (c := '(') (by decide)])
      (by simp [h.not_mem_operand ha (c := ')') (by decide)])
  | operation hop ha hb _ =>
    obtain ⟨hopen, hclose, -⟩ := Phrase.mark_ne hop
    exact hflat
      (by simp [h.not_mem_operand ha (c := '(') (by decide),
        h.not_mem_operand hb (c := '(') (by decide), hopen.symm])
      (by simp [h.not_mem_operand ha (c := ')') (by decide),
        h.not_mem_operand hb (c := ')') (by decide), hclose.symm])
  | call hf hcount hoperands hlt => cases hcall

/-- The texts of symbols are replaced, one after the other. -/
theorem Settled.flattenSymbols {keys : List Text} (h : Settled src g ctx)
    (hkeys : ∀ key ∈ keys, ∃ s, ctx.symbol? key = some s ∧ s.isCall = false)
    (hflat : ∀ p ∈ ctx.symbols, p.2.isCall = false → p.1 ∉ keys → '(' ∉ p.2.text) :
    ∃ ctx' g', flattenSymbols ['('] [')'] keys ctx = .ok ctx' ∧ Settled src g' ctx' ∧
      (∀ p ∈ ctx'.symbols, p.2.isCall = false → '(' ∉ p.2.text) ∧
      ∀ key, (ctx.symbol? key).isSome →
        (ctx'.symbol? key).isSome ∧ g'.phrase key = g.phrase key := by
  induction keys generalizing ctx g with
  | nil =>
    exact ⟨ctx, g, rfl, h, fun p hp hcall => hflat p hp hcall (by simp),
      fun key hkey => ⟨hkey, rfl⟩⟩
  | cons key keys ih =>
    obtain ⟨⟨s, hs, hcall⟩, hkeys⟩ := List.forall_mem_cons.mp hkeys
    obtain ⟨text, ctx₁, g₁, hflatten, hsimple⟩ := h.simplified hs hcall
    have hs₁ := hsimple.extend.symbol? key s hs
    have hagree := hsimple.extend.agree key (.inr (by rw [hs]; rfl))
    -- the entry of the key is the one found above, as names are distinct
    have hentry (p : Text × Symbol) (hp : p ∈ ctx₁.symbols) (hkey : p.1 = key) : p.2 = s := by
      subst hkey
      have hp' := (hsimple.settled.symbol?_eq_some_iff).mpr hp
      exact Option.some.inj (hp'.symm.trans hs₁)
    have hsettled : Settled src g₁ (ctx₁.setText key text) := by
      refine hsimple.settled.setText fun p hp => ?_
      split
      · next hkey =>
        rw [hentry p hp hkey, hkey, hagree.1, hagree.2]
        have hmeans := hsimple.means
        rw [← hcall] at hmeans
        exact hmeans
      · exact hsimple.settled.all p hp
    have hkeys' (key' : Text) (hkey' : key' ∈ keys) :
        ∃ s, (ctx₁.setText key text).symbol? key' = some s ∧ s.isCall = false := by
      obtain ⟨s', hs', hcall'⟩ := hkeys key' hkey'
      have hmem := hsimple.settled.symbol?_eq_some_iff.mp (hsimple.extend.symbol? key' s' hs')
      refine ⟨_, hsettled.symbol?_eq_some_iff.mpr (List.mem_map.mpr ⟨_, hmem, rfl⟩), ?_⟩
      split <;> exact hcall'
    have hflat' : ∀ p ∈ (ctx₁.setText key text).symbols, p.2.isCall = false → p.1 ∉ keys →
        '(' ∉ p.2.text := by
      refine List.forall_mem_map.mpr fun p hp hnot hne => ?_
      dsimp only at hnot hne ⊢
      split
      · exact hsimple.flat
      · next hkey =>
        rw [if_neg hkey] at hnot
        refine (hsimple.others p hp).elim (fun hold => hflat p hold hnot ?_) id
        exact List.not_mem_cons_of_ne_of_not_mem hkey hne
    obtain ⟨ctx', g', hrun, hsettled', hdone, hkept⟩ := ih hsettled hkeys' hflat'
    refine ⟨ctx', g', ?_, hsettled', hdone, fun name hname => ?_⟩
    · rw [Context.flattenSymbols, hs]
      dsimp only
      rw [hflatten]
      exact hrun
    · obtain ⟨hsome, hphrase⟩ := hkept name
        (isSome_symbol?_setText.mpr (hsimple.extend.isSome_symbol? name hname))
      exact ⟨hsome, hphrase.trans (hsimple.extend.agree name (.inr hname)).1⟩

theorem Settled.flattenGroups (h : Settled src g ctx) :
    ∃ ctx' g', flattenGroups ['('] [')'] ctx = .ok ctx' ∧ Settled src g' ctx' ∧
      (∀ p ∈ ctx'.symbols, p.2.isCall = false → '(' ∉ p.2.text) ∧
      ∀ key, (ctx.symbol? key).isSome →
        (ctx'.symbol? key).isSome ∧ g'.phrase key = g.phrase key := by
  have hmem {key : Text} : key ∈ ctx.plainKeys ↔
      ∃ s, ctx.symbol? key = some s ∧ s.isCall = false := by
    simp [plainKeys, sortedSymbols, h.symbol?_eq_some_iff]
  rw [flattenGroups_eq]
  exact h.flattenSymbols (fun key hkey => hmem.mp hkey) fun p hp hcall hnot =>
    absurd (hmem.mpr ⟨p.2, h.symbol?_eq_some_iff.mpr hp, hcall⟩) hnot

end Context

/-- The tables at the start, with the main symbol. -/
def Context.opened (src : Text) : Context :=
  { start src with symbols := [(mainName, { text := src, isCall := false })] }

/-- At the start a glossary has the words of the source, each for itself. -/
def Glossary.start : Glossary where
  phrase x := if x.isPlainInteger then .literal x else .parameter x
  rank _ := 0

namespace Phrase.IsPlain

open Context

/-- The tables of a printed text, when its calls and groups have been taken out: the main symbol
stands for the expression, and the symbols that are no calls have no groups. -/
theorem flattened {e : Phrase} (h : e.IsPlain) :
    ∃ text ctx ctx' g,
      (opened e.text).extractCalls .common e.text = .ok (text, ctx) ∧
      (ctx.setText mainName text).flattenGroups ['('] [')'] = .ok ctx' ∧ Settled e.text g ctx' ∧
      (∀ p ∈ ctx'.symbols, p.2.isCall = false → '(' ∉ p.2.text) ∧
      (ctx'.symbol? mainName).isSome ∧ g.phrase mainName = e := by
  have hdraft : Draft e.text Glossary.start (opened e.text) := by
    refine ⟨rfl, rfl, rfl, rfl, rfl, rfl, rfl, List.nodup_singleton _, by simp [opened],
      fun x _ hx => by simp [Glossary.start, hx], fun x _ hx => ?_, by simp [opened]⟩
    have hnot : x.isPlainInteger = false := by
      by_contra hinteger
      rw [isParameter_of_isPlainInteger (Bool.not_eq_false _ ▸ hinteger)] at hx
      cases hx
    simp [Glossary.start, hnot]
  obtain ⟨t, ctx₁, g₁, ht⟩ := h.extracted (fun _ hx => hx) hdraft
  have hmain : ctx₁.symbol? mainName = some { text := e.text, isCall := false } :=
    ht.extend.symbol? _ _ rfl
  have hrun : (opened e.text).extractCalls .common e.text = .ok (t.print, ctx₁) :=
    ht.pulls.extractCallsFrom e.text
  -- now that its rank is known, the main symbol gets its entry in the glossary
  let g₂ := g₁.define mainName e (t.rank g₁.rank + 1)
  have hphrase : g₂.phrase mainName = e := g₁.phrase_define ..
  have hsettled : Settled e.text g₂ (ctx₁.setText mainName t.print) := by
    have hdraft₂ := ht.draft.define e (t.rank g₁.rank + 1)
    refine hdraft₂.setText fun p hp => ?_
    split
    · next hkey =>
      have hp' := ht.draft.symbol?_eq_some_iff.mpr hp
      rw [hkey, hmain] at hp'
      have hmeans : Means e.text ctx₁ g₂ ⟨t.print, false⟩ e (t.rank g₁.rank + 1) := by
        have := Means.tree (g := g₁) ht.isOver (Nat.lt_succ_self _)
        rw [ht.phrase] at this
        exact this.mono (fun _ hx => hx) fun x hx =>
          g₁.define_of_ne (Draft.operand_ne_nil hx) e _
      rw [← Option.some.inj hp', hkey, hphrase,
        show g₂.rank mainName = t.rank g₁.rank + 1 from g₁.rank_define ..]
      exact hmeans
    · next hkey => exact hdraft₂.means p hp hkey
  obtain ⟨ctx', g', hgroups, hsettled', hflat, hkept⟩ := hsettled.flattenGroups
  obtain ⟨hsome, hsame⟩ := hkept mainName (isSome_symbol?_setText.mpr (by rw [hmain]; rfl))
  exact ⟨t.print, ctx₁, ctx', g', hrun, hgroups, hsettled', hflat, hsome, hsame.trans hphrase⟩

end Phrase.IsPlain

end Formula
