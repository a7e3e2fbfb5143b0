import Formula.Proofs.Source.Fields
import Formula.Proofs.Source.LeafOrder

/-!
# Texts without literals

When the literals are taken out of a source, the text that is left has no quotation marks and no
hexadecimal numbers with an ampersand that stand alone. Taking calls and groups out of it keeps this:
what is set aside is a part of a text, and what is put in its place is a generated name or a key that
is known, so neither ends a quotation nor goes on from an ampersand.

## Main definitions

* `Source.Stripped`: a text without quotation marks and hexadecimal numbers.
* `Context.IsStripped`: tables whose texts are all stripped.

## Main results

* `Context.Takes.stripped`, `Context.FlattensAll.stripped`: the stages keep texts stripped.
* `Compiler.Staged.stripped`: the texts of a compilation are stripped.
-/

namespace Formula

open Text

namespace Source

/-- A text without quotation marks and without hexadecimal numbers that stand alone. -/
structure Stripped (text : Text) : Prop where
  unquoted : '"' ∉ text
  unhexed : Unhexed text

namespace Stripped

variable {before part rest : Text}

theorem of_part (h : Stripped (before ++ part ++ rest))
    (hleft : ∀ c ∈ before.getLast?, isIdentifierChar c = false)
    (hright : (∀ c ∈ rest.head?, isIdentifierChar c = false) ∨
      ∀ c ∈ part.getLast?, isIdentifierChar c = false) : Stripped part :=
  ⟨fun hmem => h.unquoted (by simp [hmem]), h.unhexed.of_part hleft hright⟩

/-- What stands around an operator is stripped. -/
theorem of_operator {op : Text} (hne : op ≠ []) (hop : ∀ c ∈ op, isIdentifierChar c = false)
    (h : Stripped (before ++ op ++ rest)) : Stripped before ∧ Stripped rest := by
  constructor
  · rw [List.append_assoc, ← List.nil_append before] at h
    refine h.of_part (by simp) (.inl fun c hc => hop c (List.mem_of_mem_head? ?_))
    rwa [List.head?_append_of_ne_nil _ hne] at hc
  · rw [← List.append_nil (_ ++ rest)] at h
    refine h.of_part (fun c hc => hop c (List.mem_of_getLast? ?_)) (.inl (by simp))
    rwa [List.getLast?_append_of_ne_nil _ hne] at hc

theorem of_forall {text : Text} (h : ∀ c ∈ text, isIdentifierChar c = true) : Stripped text := by
  have hnot {d : Char} (hd : isIdentifierChar d = false) : d ∉ text := fun hmem => by
    cases hd.symm.trans (h d hmem)
  exact ⟨hnot (by decide), .of_not_mem (hnot (by decide))⟩

/-- A name in a gap keeps a text stripped. -/
theorem isolated (hbefore : Stripped before) (hrest : Stripped rest) (h : IsolatedBy before rest) (n : Nat) :
    Stripped (before ++ Context.generatedName n ++ rest) := by
  have hname : '"' ∉ Context.generatedName n := (of_forall (generatedName_word n).2).unquoted
  exact ⟨by simp [hbefore.unquoted, hname, hrest.unquoted],
    hbefore.unhexed.isolated hrest.unhexed h ⟨n, rfl⟩⟩

/-- Texts that do not touch in a word are stripped together unless the mark of a number is torn apart. -/
theorem append {a b : Text} (ha : Stripped a) (hb : Stripped b)
    (hapart : (∀ c ∈ a.getLast?, isIdentifierChar c = false) ∨
      ∀ c ∈ b.head?, isIdentifierChar c = false)
    (hmark : a.getLast? = some '&' → b.head? ≠ some 'h' ∧ b.head? ≠ some 'H') : Stripped (a ++ b) :=
  ⟨by simp [ha.unquoted, hb.unquoted], ha.unhexed.append hb.unhexed hapart hmark⟩

/-- What no name starts with does not go on from the mark of a number. -/
theorem ne_of_isIdentifierChar {b : Text} (h : ∀ c ∈ b.head?, isIdentifierChar c = false) :
    b.head? ≠ some 'h' ∧ b.head? ≠ some 'H' :=
  ⟨fun heq => absurd (h 'h' heq) (by decide), fun heq => absurd (h 'H' heq) (by decide)⟩

/-- A known key in a gap keeps a text stripped. -/
theorem put (hbefore : Stripped before) (hpart : Stripped part) (hrest : Stripped rest)
    (h : IsolatedBy before rest) (hhead : part.head? ≠ some 'h' ∧ part.head? ≠ some 'H') :
    Stripped (before ++ part ++ rest) :=
  (hbefore.append hpart (.inl h.left) fun _ => hhead).append hrest (.inr h.right) fun _ =>
    ne_of_isIdentifierChar h.right

section Intercalate

variable {separator : Text} {parts : List Text} (hne : separator ≠ [])
  (hhead : ∀ c ∈ separator.head?, isIdentifierChar c = false)
  (hlast : ∀ c ∈ separator.getLast?, isIdentifierChar c = false)
include hne hhead hlast

/-- The parts of a stripped text are stripped. -/
theorem of_intercalate (h : Stripped (separator.intercalate parts)) : ∀ part ∈ parts, Stripped part := by
  induction parts with
  | nil => simp
  | cons part parts ih =>
    cases parts with
    | nil => simpa [List.intercalate] using h
    | cons next parts =>
      rw [List.intercalate_cons_cons] at h
      refine List.forall_mem_cons.mpr ⟨?_, ih ?_⟩
      · rw [List.append_assoc, ← List.nil_append part] at h
        refine h.of_part (by simp) (.inl fun c hc => hhead c ?_)
        rwa [List.head?_append_of_ne_nil _ hne] at hc
      · rw [← List.append_nil (_ ++ _)] at h
        refine of_part h (fun c hc => hlast c ?_) (.inl (by simp))
        rwa [List.getLast?_append_of_ne_nil _ hne] at hc

/-- Stripped parts make up a stripped text. -/
theorem intercalate (hseparator : Stripped separator) (hmark : separator.getLast? ≠ some '&')
    (h : ∀ part ∈ parts, Stripped part) : Stripped (separator.intercalate parts) := by
  induction parts with
  | nil => exact ⟨by simp [List.intercalate], .of_not_mem (by simp [List.intercalate])⟩
  | cons part parts ih =>
    obtain ⟨hpart, hparts⟩ := List.forall_mem_cons.mp h
    cases parts with
    | nil => simpa [List.intercalate] using hpart
    | cons next parts =>
      rw [List.intercalate_cons_cons]
      have hlast' : (part ++ separator).getLast? = separator.getLast? :=
        List.getLast?_append_of_ne_nil _ hne
      refine (hpart.append hseparator (.inr hhead) fun _ => ne_of_isIdentifierChar hhead).append
        (ih hparts) (.inl (hlast' ▸ hlast)) fun heq => absurd (hlast'.symm.trans heq) hmark

end Intercalate

end Stripped

end Source

/-! ### The stages -/

namespace Context

open Source

/-- The texts of all symbols that are no calls are stripped. -/
def IsStripped (ctx : Context) : Prop :=
  ∀ key s, ctx.symbol? key = some s → s.isCall = false → Stripped s.text

theorem IsStripped.addSymbol {ctx : Context} (h : ctx.IsStripped) {text : Text} {isCall : Bool}
    (htext : isCall = false → Stripped text) : (ctx.addSymbol text isCall).2.IsStripped := by
  intro key s hs hcall
  rcases eq_or_symbol?_of_addSymbol hs with ⟨-, rfl⟩ | hs
  · exact htext hcall
  · exact h key s hs hcall

theorem IsStripped.setText {ctx : Context} (h : ctx.IsStripped) (key : Text) {text : Text}
    (htext : Stripped text) : (ctx.setText key text).IsStripped := by
  intro k s hs hcall
  rw [symbol?_setText] at hs
  obtain ⟨s, hsymbol, rfl⟩ := Option.map_eq_some_iff.mp hs
  by_cases hk : k = key
  · rw [if_pos hk]
    exact htext
  · rw [if_neg hk] at hcall ⊢
    exact h k s hsymbol hcall

/-- The texts of a job are stripped. -/
def Job.IsStripped : Job → Prop
  | .search rest => Stripped rest
  | .arguments args => ∀ arg ∈ args, Stripped arg

/-- Taking calls out of stripped texts leaves stripped texts. -/
theorem Takes.stripped {tokens : CallTokens} (hopening : tokens.opening = ['('])
    (hclosing : tokens.closing = [')']) (hseparator : tokens.separator = [',']) {job : Job}
    {results : List Text} {ctx ctx' : Context} (h : Takes tokens job ctx results ctx')
    (hjob : job.IsSound) (hstripped : job.IsStripped) (hctx : ctx.IsStripped) :
    (∀ text ∈ results, Stripped text) ∧ ctx'.IsStripped := by
  induction h with
  | done => exact ⟨List.forall_mem_singleton.mpr hstripped, hctx⟩
  | nil => exact ⟨by simp, hctx⟩
  | @call rest head name tail inner after text operands ctx ctx₁ ctx' hfind hclose hargs hrest ihargs
      ihrest =>
    obtain ⟨rfl, -, hgap, hafter, harguments, -⟩ :=
      exists_of_search hopening hclosing hseparator hjob hfind hclose
    have hstripped : Stripped (head ++ name ++ '(' :: (inner ++ ')' :: after)) := hstripped
    obtain ⟨_, heq, -, -, hfirst⟩ := hrest.laid hopening hclosing rfl hafter
    obtain rfl := List.singleton_inj.mp heq
    have hhead : Stripped head := by
      rw [List.append_assoc, ← List.nil_append head] at hstripped
      exact hstripped.of_part (by simp) (.inr hgap.isolatedBy.left)
    have hinner : Stripped inner := by
      rw [show head ++ name ++ '(' :: (inner ++ ')' :: after) =
        head ++ name ++ ['('] ++ inner ++ ')' :: after by simp] at hstripped
      exact hstripped.of_part (by simp; decide) (.inl (by simp; decide))
    have hafterStripped : Stripped after := by
      rw [show head ++ name ++ '(' :: (inner ++ ')' :: after) =
        head ++ name ++ '(' :: (inner ++ [')']) ++ after ++ [] by simp] at hstripped
      exact hstripped.of_part (by simp [List.getLast?_cons]; decide) (.inl (by simp))
    have hargsStripped : (Job.arguments (tokens.arguments inner)).IsStripped := by
      have hparts := (intercalate_splitTop 0 inner).1
      rw [CallTokens.arguments, hopening, hclosing, hseparator]
      split
      · exact List.forall_mem_nil _
      · rw [← hparts] at hinner
        exact hinner.of_intercalate (by simp) (by simp; decide) (by simp; decide)
    obtain ⟨htext, hctx'⟩ := ihrest hafter hafterStripped
      ((ihargs harguments hargsStripped hctx).2.addSymbol (by simp))
    refine ⟨List.forall_mem_singleton.mpr ?_, hctx'⟩
    exact hhead.isolated (htext _ (List.mem_singleton_self _))
      (Gap.isolatedBy ⟨hgap.left, hfirst hgap.right⟩) _
  | plain harg hne hplain hrest iharg ihrest =>
    obtain ⟨⟨hlaid, -⟩, hargs⟩ := List.forall_mem_cons.mp hjob
    obtain ⟨harg, hargsStripped⟩ := List.forall_mem_cons.mp hstripped
    obtain ⟨htext, hctx₁⟩ := iharg hlaid harg hctx
    obtain ⟨hoperands, hctx'⟩ := ihrest hargs hargsStripped hctx₁
    exact ⟨List.forall_mem_cons.mpr ⟨htext _ (List.mem_singleton_self _), hoperands⟩, hctx'⟩
  | named harg hne _ hrest iharg ihrest =>
    obtain ⟨⟨hlaid, -⟩, hargs⟩ := List.forall_mem_cons.mp hjob
    obtain ⟨harg, hargsStripped⟩ := List.forall_mem_cons.mp hstripped
    obtain ⟨htext, hctx₁⟩ := iharg hlaid harg hctx
    obtain ⟨hoperands, hctx'⟩ := ihrest hargs hargsStripped
      (hctx₁.addSymbol fun _ => htext _ (List.mem_singleton_self _))
    exact ⟨List.forall_mem_cons.mpr ⟨.of_forall (generatedName_word _).2, hoperands⟩, hctx'⟩

/-- Taking the groups out of a stripped text leaves a stripped text. -/
theorem Flattens.stripped {text text' : Text} {ctx ctx' : Context}
    (h : Flattens ['('] [')'] text ctx text' ctx') (hlaid : Laid false text) (hstripped : Stripped text)
    (hknown : ctx.KnowsOnly IsAtomicOrQuoted) (hctx : ctx.IsStripped) : Stripped text' ∧ ctx'.IsStripped := by
  have hparts {text before tail inner rest : Text} (hlaid : Laid false text) (hstripped : Stripped text)
      (hopen : cutLast? ['('] text = some (before, tail))
      (hclose : cut? [')'] tail = some (inner, rest)) :
      Stripped before ∧ Stripped inner ∧ Stripped rest ∧ IsolatedBy before rest := by
    obtain ⟨-, -, hgap, -, -⟩ := exists_of_group hlaid hopen hclose
    obtain rfl := eq_append_of_cutLast? hopen
    obtain rfl := eq_append_of_cut? hclose
    refine ⟨?_, ?_, ?_, hgap.isolatedBy⟩
    · rw [List.append_assoc, ← List.nil_append before] at hstripped
      exact hstripped.of_part (by simp) (.inr hgap.isolatedBy.left)
    · rw [show before ++ ['('] ++ (inner ++ [')'] ++ rest) = before ++ ['('] ++ inner ++ ')' :: rest
        by simp] at hstripped
      exact hstripped.of_part (by simp; decide) (.inl (by simp; decide))
    · rw [show before ++ ['('] ++ (inner ++ [')'] ++ rest) =
        before ++ ['('] ++ (inner ++ [')']) ++ rest ++ [] by simp] at hstripped
      exact hstripped.of_part (by simp [List.getLast?_cons]; decide) (.inl (by simp))
  induction h with
  | done => exact ⟨hstripped, hctx⟩
  | known hopen hclose _ hinner _ ih =>
    obtain ⟨hlaid', -, -, -, hput⟩ := exists_of_group hlaid hopen hclose
    obtain ⟨hbefore, hinnerStripped, hrest, hisolated⟩ := hparts hlaid hstripped hopen hclose
    have hatomic := (hknown.of_isKnown hinner).resolve_left hinnerStripped.unquoted
    exact ih (hput _ hlaid') (hbefore.put hinnerStripped hrest hisolated hatomic.head) hknown hctx
  | @group text before tail inner rest text' ctx ctx' hopen hclose _ _ _ ih =>
    obtain ⟨-, -, -, -, hput⟩ := exists_of_group hlaid hopen hclose
    obtain ⟨hbefore, hinnerStripped, hrest, hisolated⟩ := hparts hlaid hstripped hopen hclose
    obtain ⟨hnewne, hnewchars⟩ := ctx.addSymbol_word inner false
    have hnew : Laid false (ctx.addSymbol inner false).1 := by
      rw [Laid, pieces_of_name hnewne hnewchars]
      exact List.isChain_singleton _
    exact ih (hput _ hnew) (hbefore.isolated hrest hisolated _)
      (hknown.addSymbol (fun n => .inr (isAtomic_generatedName n)) inner false)
      (hctx.addSymbol fun _ => hinnerStripped)

/-- Taking the groups out of symbols keeps the tables stripped. -/
theorem FlattensAll.stripped {keys : List Text} {ctx ctx' : Context}
    (h : FlattensAll ['('] [')'] keys ctx ctx') (hleveled : Leveled keys ctx)
    (hknown : ctx.KnowsOnly IsAtomicOrQuoted) (hctx : ctx.IsStripped) : ctx'.IsStripped := by
  induction h with
  | nil => exact hctx
  | skip hkey _ ih => exact ih (hleveled.skip hkey) hknown hctx
  | symbol hkey hflat _ ih =>
    obtain ⟨htext, hctx₁⟩ := hflat.stripped (hleveled.laid hkey).2
      (hctx _ _ hkey (hleveled.calls _ (List.mem_cons_self ..) _ hkey)) hknown hctx
    have hknown₁ := hflat.preserves (P := fun ctx => ctx.KnowsOnly IsAtomicOrQuoted)
      (fun _ text h => h.addSymbol (fun n => .inr (isAtomic_generatedName n)) text false) hknown
    exact ih (hleveled.step hkey hflat) (hknown₁.setText _ _) (hctx₁.setText _ htext)

end Context

/-! ### The tables of a source -/

namespace Source

/-- What is left of a source without its literals is stripped. -/
theorem stripped_extractLiterals (style : Precedence) {source : Text} (hclosed : '"' ∉ tail source) :
    Stripped ((Context.start source).extractLiterals { precedence := style } Registry.standard).1 := by
  refine ⟨(scanned_extractLiterals style hclosed).unquoted, ?_⟩
  have hnames : ∀ name ∈ (Context.takeStrings source (Context.start source)).2.literals.map Prod.snd,
      ∃ n, name = Context.generatedName n :=
    Context.takeStrings_preserves
      (P := fun ctx => ∀ name ∈ ctx.literals.map Prod.snd, ∃ n, name = Context.generatedName n)
      (fun _ value text h => names_intern h value text) source (by simp)
  rw [Context.extractLiterals_common]
  refine unhexed_scanNumber _ _ _ _ (Context.pass_preserves
    (P := fun ctx => ∀ name ∈ ctx.literals.map Prod.snd, ∃ n, name = Context.generatedName n)
    (fun _ value text h => names_intern h value text) _ _ _ _ hnames) ?_
  exact fun u _ _ _ hlt => absurd hlt (Nat.not_lt_zero _)

end Source

namespace Compiler.Staged

open Source

variable {style : Precedence} {source : Text} {ctx : Context} (S : Staged style source ctx)
include S

/-- The texts of a compilation are stripped. -/
theorem stripped (hclosed : '"' ∉ tail source) : S.tables.IsStripped := by
  obtain ⟨hopening, hclosing, hseparator⟩ := delimiters_common style
  have hextracted : ((Context.start source).extractLiterals { precedence := style }
      Registry.standard).1 = S.text := congrArg Prod.fst S.extracted
  have htext := stripped_extractLiterals style hclosed
  rw [hextracted] at htext
  obtain ⟨hplain, hcalled⟩ := S.takes.stripped hopening hclosing hseparator S.cleared.laid htext
    fun key s hs _ => by
      rw [(S.symbol?_start hs).2]
      exact htext
  have hknown : S.called.KnowsOnly IsAtomicOrQuoted :=
    S.knowsOnly_called (fun n => .inr (isAtomic_generatedName n))
      (.inr (isAtomic_of_forall (by decide) (by simp [Context.mainName])))
      (knowsOnly_extractLiterals style hclosed)
  exact S.flattens.stripped S.leveled (hknown.setText _ _)
    (hcalled.setText _ (hplain _ (List.mem_singleton_self _)))

end Compiler.Staged

end Formula
