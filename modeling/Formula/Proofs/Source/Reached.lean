import Formula.Proofs.Compile.Splits
import Formula.Proofs.Source.FreshNames

/-!
# The parts of a text that are built

Parts of a text are set aside under names, and only what is met again while the tree is built is
looked at any more. Nothing is lost on the way: a name stands in a text only where it was put, so it is
an operand as a whole, and building a text builds what its operands name. So in a compilation that
succeeds all parts of the text are built, as long as names have four digits.

## Main definitions

* `TreeBuilder.Builds`: a symbol is built.
* `TreeBuilder.Supplied`: all parts of the text that are named in a text are built.
* `TreeBuilder.Apart`: the names in the tables are told apart.

## Main results

* `TreeBuilder.Derives.supplied`: a text that is built is supplied.
* `Compiler.Resolves.apart`: the names in the tables of a compilation are told apart.
-/

namespace Formula

open Text

theorem Context.parentheses_not_mem_generatedName (n : Nat) :
    '(' ∉ generatedName n ∧ ')' ∉ generatedName n := by
  constructor <;>
  · intro hmem
    exact absurd (Sorted.isWordChar_of_mem_generatedName hmem) (by decide)

/-- The beginning and the end of a token are no characters of names. -/
def Token.isOuter (token : Text) : Bool :=
  token.head?.any (fun c => !isIdentifierChar c) && token.getLast?.any (fun c => !isIdentifierChar c) &&
    'i' ∉ token

theorem Token.severs {token : Text} (h : Token.isOuter token = true) (n : Nat) :
    Severs token (Context.generatedName n) := by
  simp only [isOuter, Bool.and_eq_true, Option.any_eq_true, Bool.not_eq_true', decide_eq_true_eq] at h
  obtain ⟨⟨⟨c, hc, hhead⟩, ⟨d, hd, hlast⟩⟩, hi⟩ := h
  have hnot {c : Char} (hc : isIdentifierChar c = false) : c ∉ Context.generatedName n := fun hmem => by
    rw [isIdentifierChar_of_isWordChar (Context.Sorted.isWordChar_of_mem_generatedName hmem)] at hc
    cases hc
  refine ⟨?_, ?_, ?_, contains_eq_false (c := 'i') (by simp [Context.generatedName]) hi⟩
  · rintro rfl
    cases hc
  · rintro e he
    obtain rfl : c = e := Option.some.inj (hc.symm.trans he)
    exact hnot hhead
  · rintro e he
    obtain rfl : d = e := Option.some.inj (hd.symm.trans he)
    exact hnot hlast

/-- The name of a function holds no generated name. -/
theorem contains_of_lookup? {name : Text} {count : Nat} {f : Function}
    (h : Function.lookup? (String.ofList name) count = some f) (n : Nat) :
    contains (Context.generatedName n) name = false := by
  have hall : (Function.allSpellings.all fun x => !contains "item".toList x) = true := by decide
  have hspelled := List.find?_some h
  have hmem : name ∈ Function.allSpellings := List.mem_flatMap.mpr ⟨f, List.mem_of_find?_eq_some h,
    List.mem_map.mpr ⟨_, List.contains_iff_mem.mp (Bool.and_eq_true_iff.mp hspelled).1,
      String.toList_ofList ..⟩⟩
  by_contra hcontains
  obtain ⟨before, rest, hname⟩ := contains_iff.mp (Bool.not_eq_false _ ▸ hcontains)
  have hword : contains "item".toList (Context.generatedName n) = true :=
    contains_iff.mpr ⟨[], Text.padded 4 n, rfl⟩
  have := List.all_eq_true.mp hall name hmem
  rw [contains_mono hword ⟨before, rest, hname.symm⟩] at this
  cases this

namespace TreeBuilder

/-! ### Calls -/

section Calls

variable {t : TreeBuilder} (hopening : t.tokens.opening = ['(']) (hclosing : t.tokens.closing = [')'])
include hopening hclosing

/-- A text that is a call: a name without parentheses before the first one, and a parenthesis at the
end. -/
theorem eq_of_splitCall? {text name inner : Text} (h : t.splitCall? text = some (name, inner)) :
    text = name ++ '(' :: (inner ++ [')']) ∧ '(' ∉ name := by
  unfold splitCall? at h
  split at h
  · cases h
  · next c rest =>
    split at h
    · obtain ⟨short, -, h⟩ := List.exists_of_findSome?_eq_some h
      dsimp only at h
      split at h
      · cases h
      · next rest' hafter =>
        obtain ⟨inner', hbefore, heq⟩ := Option.map_eq_some_iff.mp h
        obtain ⟨rfl, rfl⟩ := Prod.mk.inj heq
        rw [before?, hclosing, Option.map_eq_some_iff] at hbefore
        obtain ⟨reversed, hreversed, rfl⟩ := hbefore
        have hend : rest' = reversed.reverse ++ [')'] := by
          simpa using congrArg List.reverse (after?_eq_some_iff.mp hreversed)
        refine ⟨?_, fun hmem => ?_⟩
        · have hdrop := after?_eq_some_iff.mp hafter
          rw [hopening, hend, List.singleton_append] at hdrop
          rw [← hdrop, List.take_append_drop]
        · -- the name is a part of the word at the front
          have hname := (List.prefix_of_prefix_length_le (List.take_prefix _ (c :: rest))
            (List.takeWhile_prefix fun c => isLetter c || isNumeral c || c == '_')
            ((List.length_take_le _ _).trans (Nat.sub_le _ short))).subset hmem
          exact absurd (List.all_eq_true.mp List.all_takeWhile _ hname) (by decide)
    · cases h

end Calls

/-! ### Texts that are built -/

/-- A text is split at the token of an operator. -/
theorem exists_token_of_mem_candidates {t : TreeBuilder} {text : Text} {split : Split}
    (h : split ∈ t.candidates text) : ∃ entry ∈ t.binary, text =
      text.take split.place ++ entry.2.2 ++ text.drop (split.place + split.width) := by
  simp only [candidates, List.mem_mergeSort, List.mem_filter, List.mem_flatMap, List.mem_map] at h
  obtain ⟨⟨entry, hentry, place, hplace, rfl⟩, -⟩ := h
  obtain ⟨before, rest, rfl, rfl⟩ := exists_of_mem_places hplace
  refine ⟨entry, hentry, ?_⟩
  simp

/-- A symbol is built: its text is, or it is a call of a function whose arguments all are. -/
inductive Builds (t : TreeBuilder) : Symbol → Prop
  | text {text : Text} {node : Node} (h : t.Derives text node) : Builds t ⟨text, false⟩
  | call {text name inner : Text} {f : Function} (hcall : t.splitCall? text = some (name, inner))
      (hlookup : Function.lookup? (String.ofList name) (t.callArguments inner).length = some f)
      (hargs : ∀ arg ∈ t.callArguments inner, ∃ node, t.Derives arg node) : Builds t ⟨text, true⟩

/-- What a name stands for is built, if it stands for a part of the text. -/
def Reaches (t : TreeBuilder) (name : Text) : Prop :=
  ∀ s, t.context.symbol? name = some s → t.Builds s

/-- All parts of the text that are named in a text are built. -/
def Supplied (t : TreeBuilder) (text : Text) : Prop :=
  ∀ n, contains (Context.generatedName n) text = true → t.Reaches (Context.generatedName n)

/-- The names of parts of the text are told apart: they stand in no token, and in nothing else that
is known. -/
structure Apart (t : TreeBuilder) : Prop where
  opening : t.tokens.opening = ['(']
  closing : t.tokens.closing = [')']
  separator : t.tokens.separator = [',']
  binary : ∀ entry ∈ t.binary, Token.isOuter entry.2.2 = true
  unary : ∀ entry ∈ t.unary, Token.isOuter entry.2 = true
  constants : ∀ n s key, t.context.symbol? (Context.generatedName n) = some s →
    (t.context.constant? key).isSome = true → contains (Context.generatedName n) key = false
  params : ∀ n s key, t.context.symbol? (Context.generatedName n) = some s →
    (Context.parameterIndex? t.context.params key).isSome = true →
      contains (Context.generatedName n) key = false
  symbols : ∀ n s key, t.context.symbol? (Context.generatedName n) = some s →
    (t.context.symbol? key).isSome = true → contains (Context.generatedName n) key = true →
      key = Context.generatedName n

/-- A name that stands in a call stands in one of its arguments. -/
theorem Apart.contains_call {t : TreeBuilder} (h : t.Apart) {text name inner : Text} {f : Function}
    (hcall : t.splitCall? text = some (name, inner))
    (hlookup : Function.lookup? (String.ofList name) (t.callArguments inner).length = some f) (n : Nat) :
    contains (Context.generatedName n) text =
      (t.callArguments inner).any (contains (Context.generatedName n)) := by
  obtain ⟨hopen, hclose⟩ := Context.parentheses_not_mem_generatedName n
  have hsevers : Severs [','] (Context.generatedName n) := Token.severs (by decide) n
  have hne := Context.generatedName_ne_nil n
  rw [(eq_of_splitCall? h.opening h.closing hcall).1, contains_append_cons hopen,
    contains_append_cons hclose, contains_of_lookup? hlookup, Bool.false_or,
    contains_nil hne, Bool.or_false, callArguments]
  split
  · next hnil =>
    rw [hnil]
    exact contains_nil hne
  · rw [h.separator, ← contains_intercalate hsevers hne, intercalate_splitAll (List.cons_ne_nil _ _)]

/-- Every argument of a call goes with an operand. -/
theorem exists_operand {R : Text → Node → Prop} {args : List Text} {operands : List Node}
    (hlen : args.length = operands.length) (h : ∀ p ∈ args.zip operands, R p.1 p.2) :
    ∀ arg ∈ args, ∃ n, R arg n := by
  have hall : List.Forall₂ R args operands := List.forall₂_iff_zip.mpr ⟨hlen, fun hp => h _ hp⟩
  intro arg harg
  obtain ⟨i, hi, rfl⟩ := List.getElem_of_mem harg
  exact ⟨_, hall.get hi (by omega)⟩

/-- A text that is built is supplied. -/
theorem Derives.supplied {t : TreeBuilder} (ht : t.Apart) {key : Text} {node : Node}
    (h : t.Derives key node) : t.Supplied key := by
  induction h with
  | constant hkey =>
    intro n hname s hs
    rw [ht.constants n s _ hs (by rw [hkey]; rfl)] at hname
    cases hname
  | parameter hkey =>
    intro n hname s hs
    rw [ht.params n s _ hs (by rw [hkey]; rfl)] at hname
    cases hname
  | @symbol key symbol node hkey hplain h _ =>
    intro n hname s hs
    obtain rfl := ht.symbols n s _ hs (by rw [hkey]; rfl) hname
    obtain rfl := Option.some.inj (hkey.symm.trans hs)
    obtain ⟨text, isCall⟩ := symbol
    obtain rfl : isCall = false := hplain
    exact .text h
  | @call key text name inner f operands node hkey hcall hlookup hlen hoperands _ ih =>
    have hargs := exists_operand (R := fun arg n => t.Derives arg n ∧ t.Supplied arg) hlen
      fun p hp => ⟨hoperands p hp, ih p hp⟩
    rcases hkey with rfl | ⟨symbol, hsymbol, hiscall, rfl⟩
    · intro n hname
      rw [ht.contains_call hcall hlookup, List.any_eq_true] at hname
      obtain ⟨arg, harg, hname⟩ := hname
      obtain ⟨-, -, hsupplied⟩ := hargs arg harg
      exact hsupplied n hname
    · intro n hname s hs
      obtain rfl := ht.symbols n s _ hs (by rw [hsymbol]; rfl) hname
      obtain rfl := Option.some.inj (hsymbol.symm.trans hs)
      obtain ⟨text, isCall⟩ := symbol
      obtain rfl : isCall = true := hiscall
      exact .call hcall hlookup fun arg harg => (hargs arg harg).imp fun _ => And.left
  | @binary text split left right node hsplit _ _ _ ihleft ihright =>
    intro n hname
    obtain ⟨entry, htoken, htext⟩ := exists_token_of_mem_candidates hsplit
    rw [htext, ((Token.severs (ht.binary _ htoken)) n).contains_append, Bool.or_eq_true] at hname
    exact hname.elim (ihleft n) (ihright n)
  | @unary text rest token op operand node hop htoken _ _ _ ih =>
    intro n hname
    rw [after?_eq_some_iff.mp htoken, ← List.nil_append token,
      ((Token.severs (ht.unary _ hop)) n).contains_append, Bool.or_eq_true] at hname
    refine hname.elim (fun hnil => ?_) (ih n)
    rw [contains_nil (Context.generatedName_ne_nil n)] at hnil
    cases hnil

/-! ### Symbols that fit -/

/-- A symbol names only parts that are built, and a call without arguments is one of a function that
takes none. -/
structure Fits (t : TreeBuilder) (s : Symbol) : Prop where
  supplied : t.Supplied s.text
  call : s.isCall = true → ∀ name, '(' ∉ name → s.text = name ++ ['(', ')'] →
    (Function.lookup? (String.ofList name) 0).isSome = true

theorem Builds.fits {t : TreeBuilder} (ht : t.Apart) {s : Symbol} (h : t.Builds s) : t.Fits s := by
  cases h with
  | text h => exact ⟨h.supplied ht, fun hcall => by cases hcall⟩
  | @call text name inner f hcall hlookup hargs =>
    refine ⟨fun n hname => ?_, fun _ name' hname' htext => ?_⟩
    · rw [ht.contains_call hcall hlookup, List.any_eq_true] at hname
      obtain ⟨arg, harg, hname⟩ := hname
      obtain ⟨node, hnode⟩ := hargs arg harg
      exact hnode.supplied ht n hname
    · obtain ⟨heq, hopen⟩ := eq_of_splitCall? ht.opening ht.closing hcall
      obtain ⟨x, rfl, hx⟩ := exists_of_append_cons hname' (htext.symm.trans heq)
      obtain rfl : x = [] := by
        rcases x with _ | ⟨c, x⟩
        · rfl
        · obtain ⟨rfl, -⟩ := List.cons.inj hx
          exact absurd (by simp) hopen
      obtain rfl : inner = [] := by simpa using hx
      rw [List.append_nil] at hlookup
      exact Option.isSome_iff_exists.mpr ⟨f, hlookup⟩

namespace Supplied

variable {t : TreeBuilder} {text before inner rest : Text}

theorem of_part (h : t.Supplied text) {part : Text} (hpart : part <:+: text) : t.Supplied part :=
  fun n hname => h n (contains_mono hname hpart)

theorem parts (h : t.Supplied (before ++ inner ++ rest)) :
    t.Supplied before ∧ t.Supplied inner ∧ t.Supplied rest :=
  ⟨h.of_part ⟨[], inner ++ rest, by simp⟩, h.of_part ⟨before, rest, rfl⟩,
    h.of_part ⟨before ++ inner, [], by simp⟩⟩

theorem parenthesized (hbefore : t.Supplied before) (hinner : t.Supplied inner)
    (hrest : t.Supplied rest) : t.Supplied (before ++ '(' :: (inner ++ ')' :: rest)) := by
  intro n hname
  obtain ⟨hopen, hclose⟩ := Context.parentheses_not_mem_generatedName n
  rw [contains_append_cons hopen, contains_append_cons hclose, Bool.or_eq_true, Bool.or_eq_true]
    at hname
  exact hname.elim (hbefore n) fun hname => hname.elim (hinner n) (hrest n)

/-- A name put between two texts is that of a part that is built. -/
theorem reaches {n : Nat} (h : t.Supplied (before ++ Context.generatedName n ++ rest)) :
    t.Reaches (Context.generatedName n) :=
  h n (contains_iff.mpr ⟨before, rest, rfl⟩)

/-- A text is supplied if it is with its operators marked. -/
theorem of_mark (h : t.Supplied (Markers.common.mark text)) : t.Supplied text := by
  intro n hname
  refine h n ?_
  have htokens : (Markers.common.tokens.all fun entry => Token.isOuter entry.1) = true := by decide
  clear h
  rw [Markers.mark]
  generalize Markers.common.tokens = tokens at htokens
  induction tokens generalizing text with
  | nil => exact hname
  | cons entry tokens ih =>
    obtain ⟨hentry, htokens⟩ := Bool.and_eq_true_iff.mp htokens
    refine ih ?_ htokens
    dsimp only
    split
    · exact hname
    · have hsevers := Token.severs hentry n
      rw [← intercalate_splitAll hsevers.ne_nil text,
        contains_intercalate hsevers (Context.generatedName_ne_nil n), List.any_eq_true] at hname
      obtain ⟨part, hpart, hname⟩ := hname
      exact contains_mono hname (infix_intercalate hpart)

end Supplied

end TreeBuilder

namespace Context

variable {t : TreeBuilder}

/-- What is reached fits. -/
def Suits (t : TreeBuilder) (key : Text) (s : Symbol) : Prop :=
  t.Reaches key → t.Fits s

/-- What is left of a text names all that the groups in it name. -/
theorem Flattens.supplied {text text' : Text} {ctx ctx' : Context}
    (h : Flattens ['('] [')'] text ctx text' ctx') {current : Text}
    (hcurrent : (ctx.symbol? current).isSome) (hsuits : ForallBut (Suits t) current ctx') :
    ForallBut (Suits t) current ctx ∧ (t.Supplied text' → t.Supplied text) := by
  induction h with
  | done => exact ⟨hsuits, id⟩
  | known hopen hclose _ _ _ ih =>
    obtain ⟨hsuits, hflat⟩ := ih hcurrent hsuits
    refine ⟨hsuits, fun h => ?_⟩
    obtain ⟨hbefore, hinner, hrest⟩ := (hflat h).parts
    rw [group_eq hopen hclose]
    exact .parenthesized hbefore hinner hrest
  | @group text before tail inner rest text' ctx ctx' hopen hclose _ _ _ ih =>
    obtain ⟨hsuits, hflat⟩ := ih (isSome_symbol?_addSymbol hcurrent inner false) hsuits
    obtain ⟨hsuits, hinner⟩ := hsuits.of_addSymbol hcurrent
    refine ⟨hsuits, fun h => ?_⟩
    obtain ⟨hbefore, -, hrest⟩ := (hflat h).parts
    rw [group_eq hopen hclose]
    exact .parenthesized hbefore (hinner (hflat h).reaches).supplied hrest

/-- What is reached fits before the groups are taken out if it does then. -/
theorem FlattensAll.suits {keys : List Text} {ctx ctx' : Context}
    (h : FlattensAll ['('] [')'] keys ctx ctx')
    (hkeys : ∀ key ∈ keys, ∀ s, ctx.symbol? key = some s → s.isCall = false)
    (hsuits : ∀ key s, ctx'.symbol? key = some s → Suits t key s) :
    ∀ key s, ctx.symbol? key = some s → Suits t key s := by
  induction h with
  | nil => exact hsuits
  | skip _ _ ih => exact ih (fun key hkey => hkeys key (List.mem_cons_of_mem _ hkey)) hsuits
  | @symbol key text keys symbol ctx ctx₁ ctx' hkey hflat _ ih =>
    have hcurrent : (ctx.symbol? key).isSome = true := by
      rw [hkey]
      rfl
    obtain ⟨hplain, hkept⟩ : (∀ k ∈ key :: keys, ∀ s, ctx₁.symbol? k = some s → s.isCall = false) ∧
        ctx₁.symbol? key = some symbol :=
      hflat.preserves (P := fun ctx => (∀ k ∈ key :: keys, ∀ s, ctx.symbol? k = some s →
          s.isCall = false) ∧ ctx.symbol? key = some symbol)
        (fun ctx text h => ⟨fun k hk s hs => (eq_or_symbol?_of_addSymbol hs).elim
          (fun heq => heq.2 ▸ rfl) (h.1 k hk s), symbol?_addSymbol h.2 text false⟩) ⟨hkeys, hkey⟩
    have hset := ih (fun k hk s hs => by
      rw [symbol?_setText] at hs
      obtain ⟨s', hs', rfl⟩ := Option.map_eq_some_iff.mp hs
      have := hplain k (List.mem_cons_of_mem _ hk) s' hs'
      split <;> exact this) hsuits
    obtain ⟨hothers, hflattened⟩ := hflat.supplied (t := t) hcurrent fun k hk s hs => hset k s (by
      rw [symbol?_setText, hs, Option.map_some, if_neg hk])
    intro k s hs
    by_cases hk : k = key
    · subst hk
      obtain rfl := Option.some.inj (hkey.symm.trans hs)
      intro hreached
      have hmain := hset k { symbol with text } (by
        rw [symbol?_setText, hkept, Option.map_some, if_pos rfl]) hreached
      refine ⟨hflattened hmain.supplied, fun hcall => ?_⟩
      rw [hkeys k (List.mem_cons_self ..) symbol hkey] at hcall
      cases hcall
    · exact hothers k hk s hs

end Context

namespace Compiler

namespace Resolves

variable {style : Precedence} {source : Text} {ctx : Context}

/-- The names in the tables of a compilation are told apart. -/
theorem apart (h : (common style).Resolves source ctx) (hcounter : ctx.counter < 10000) :
    (TreeBuilder.common style ctx).Apart := by
  have htidy := h.tidy
  have hnumber {n : Nat} {s : Symbol} (hs : ctx.symbol? (Context.generatedName n) = some s) :
      n < 10000 ∧ contains (Context.generatedName n) source = false := by
    obtain hmain | ⟨m, hm, heq, hfree⟩ := htidy.symbol_cases hs
    · exact absurd hmain (Context.generatedName_ne_nil n)
    · obtain rfl := Context.generatedName_injective heq
      exact ⟨hm.trans_lt hcounter, hfree⟩
  obtain ⟨hopening, hclosing, hseparator⟩ := delimiters_common style
  refine ⟨hopening, hclosing, hseparator, ?_, ?_, fun n s key hs hkey => ?_,
    fun n s key hs hkey => ?_, fun n s key hs hkey hname => ?_⟩
  · rw [← List.all_eq_true]
    simp only [TreeBuilder.common, TreeBuilder.ofDefinition]
    cases style <;> decide
  · rw [← List.all_eq_true]
    simp only [TreeBuilder.common, TreeBuilder.ofDefinition]
    cases style <;> decide
  · obtain ⟨hn, hfree⟩ := hnumber hs
    rcases htidy.foreign key (Context.mem_of_isSome_constant? hkey) with hliteral | hforeign
    · obtain ⟨m, hm, rfl⟩ := htidy.numbered key (List.mem_append_left _ hliteral)
      refine Context.contains_generatedName hn (hm.trans_lt hcounter) ?_
      rintro rfl
      exact absurd hs (by rw [show (TreeBuilder.common style ctx).context = ctx from rfl,
        htidy.apart _ hliteral]; exact nofun)
    · refine Bool.eq_false_of_not_eq_true fun hname => ?_
      rw [hforeign.names n hname] at hfree
      cases hfree
  · obtain ⟨i, hi⟩ := Option.isSome_iff_exists.mp hkey
    obtain ⟨hlt, heq, -⟩ := List.findIdx?_eq_some_iff_getElem.mp hi
    obtain rfl := eq_of_beq heq
    exact h.contains_of_parameter hcounter hs (List.getElem_mem hlt)
  · obtain ⟨s', hs'⟩ := Option.isSome_iff_exists.mp hkey
    rcases htidy.symbol_cases hs' with rfl | ⟨m, hm, rfl, -⟩
    · rw [Context.mainName, contains_nil (Context.generatedName_ne_nil n)] at hname
      cases hname
    · by_contra hne
      rw [Context.contains_generatedName (hnumber hs).1 (hm.trans_lt hcounter) fun h => hne (h ▸ rfl)]
        at hname
      cases hname

/-- The whole text is built. -/
theorem reaches_mainName (h : (common style).Resolves source ctx) {root : Node}
    {params : List Parameter} (hbuild : (common style).buildTree ctx = .ok (root, params)) :
    (TreeBuilder.common style ctx).Reaches Context.mainName := by
  intro s hs
  obtain ⟨-, node, hderives, -⟩ := derives_of_buildTree hbuild
  have hderives : (TreeBuilder.common style ctx).Derives Context.mainName node := hderives
  cases hderives with
  | constant hkey =>
    rw [show (TreeBuilder.common style ctx).context = ctx from rfl, h.tidy.constant?_eq_none hs] at hkey
    cases hkey
  | parameter hkey =>
    obtain ⟨hlt, heq, -⟩ := List.findIdx?_eq_some_iff_getElem.mp hkey
    have hidentifier := h.isIdentifier_of_parameter (List.getElem_mem hlt)
    rw [eq_of_beq heq] at hidentifier
    cases hidentifier
  | @symbol _ symbol _ hkey hplain hnode =>
    obtain rfl := Option.some.inj (hkey.symm.trans hs)
    obtain ⟨text, isCall⟩ := symbol
    obtain rfl : isCall = false := hplain
    exact .text hnode
  | @call _ text name inner f operands _ hkey hcall hlookup hlen hoperands _ =>
    rcases hkey with rfl | ⟨symbol, hkey, hiscall, rfl⟩
    · cases hcall
    · obtain rfl := Option.some.inj (hkey.symm.trans hs)
      obtain ⟨text, isCall⟩ := symbol
      obtain rfl : isCall = true := hiscall
      exact .call hcall hlookup (TreeBuilder.exists_operand hlen hoperands)
  | binary hsplit => simp [TreeBuilder.candidates, Context.mainName] at hsplit
  | unary _ htoken hrest =>
    obtain ⟨-, rfl⟩ := List.append_eq_nil_iff.mp (after?_eq_some_iff.mp htoken).symm
    exact absurd rfl hrest

end Resolves

end Compiler

end Formula
