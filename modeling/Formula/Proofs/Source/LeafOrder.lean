import Formula.Proofs.Source.MarkedTexts
import Formula.Proofs.Source.Reached
import Formula.Proofs.Source.Separation

/-!
# The order of the operands of a tree

A text is split at its operators, and its parts are built from left to right. So the parameters of
the tree, read from left to right, are words of the text that is built, in their order, once the names
for parts of it are opened. The operators of that text are marked, but without `@` in the source it is
the marked form of one text only. What is left of a text without its calls and groups unfolds to no
more than the text itself. So the parameters of a tree are met in the order in which they stand in the
source, if its operands stand apart there and white space makes no names.

## Main definitions

* `Node.leaves`, `Node.reads`: the parameters of a tree from left to right.
* `TreeBuilder.Markless`: the texts that are built have `@` only in marks.
* `Compiler.Staged`: the tables of the stages of a compilation.
* `Source.Spaced`: white space makes no names.

## Main results

* `TreeBuilder.Derives.unfolds`: a text unfolds to the parameters of its tree.
* `Compiler.Resolves.reads_sublist`: the parameters of a tree stand in their order in the source.
-/

namespace Formula

open Text

/-! ### The parameters of a tree -/

namespace Node

mutual

/-- The parameters of a tree, from left to right. -/
def leaves : Node → List Nat
  | constant _ _ => []
  | parameter id => [id]
  | apply _ operands _ => leavesAll operands

/-- The parameters of several trees, from left to right. -/
def leavesAll : List Node → List Nat
  | [] => []
  | n :: rest => leaves n ++ leavesAll rest

end

theorem leavesAll_eq_flatMap (nodes : List Node) : leavesAll nodes = nodes.flatMap leaves := by
  induction nodes with
  | nil => rfl
  | cons n nodes ih => rw [leavesAll, ih, List.flatMap_cons]

/-- A tree that is folded has no parameters. -/
theorem leaves_fold (registry : Registry) (text : String) (node : Node) :
    (node.fold registry text).leaves = node.leaves := by
  rw [fold]
  split
  · next hfoldable =>
    split
    · cases node with
      | constant | parameter => cases hfoldable
      | apply head operands typing =>
        rw [leaves, leaves, leavesAll_eq_flatMap, eq_comm, List.flatMap_eq_nil_iff]
        intro n hn
        have hconstant := List.all_eq_true.mp (Bool.and_eq_true_iff.mp hfoldable).2 n hn
        cases n with
        | constant => rfl
        | parameter | apply => cases hconstant
    · rfl
  · rfl

/-- The names of the parameters of a tree, from left to right. -/
def reads (names : List Text) (node : Node) : List Text :=
  node.leaves.map fun id => names.getD id []

end Node

/-- Types do not show in the parameters of a tree. -/
theorem Restricts.leaves_eq {u n : Node} (h : Restricts u n) : u.leaves = n.leaves := by
  induction h with
  | constant | parameter => rfl
  | @apply head us ns tu tn hlen _ _ ih =>
    have hmap : us.map Node.leaves = ns.map Node.leaves :=
      List.ext_getElem (by simpa using hlen) fun i hi hi' => by
        rw [List.length_map] at hi hi'
        rw [List.getElem_map, List.getElem_map]
        exact ih i _ _ (List.getElem?_eq_getElem hi) (List.getElem?_eq_getElem hi')
    rw [Node.leaves, Node.leaves, Node.leavesAll_eq_flatMap, Node.leavesAll_eq_flatMap,
      List.flatMap_def, List.flatMap_def, hmap]

theorem TreeBuilder.Assembles.leaves_fold {t : TreeBuilder} {head : Head} {operands : List Node}
    {node : Node} (h : t.Assembles head operands node) (text : Text) :
    (node.fold t.registry (t.plain text)).leaves = operands.flatMap Node.leaves := by
  rw [Node.leaves_fold, ← h.restricts.leaves_eq, Node.undetermined, Node.leaves,
    Node.leavesAll_eq_flatMap]

/-! ### Operators and their marks -/

namespace Text

/-- Characters that are no part of a name separate words. -/
theorem words_append_token {token : Text} (hne : token ≠ [])
    (htoken : ∀ c ∈ token, isIdentifierChar c = false) (a b : Text) :
    words (a ++ token ++ b) = words a ++ words b := by
  have hskip : ∀ token : Text, (∀ c ∈ token, isIdentifierChar c = false) →
      words (token ++ b) = words b := by
    intro token htoken
    induction token with
    | nil => rfl
    | cons c token ih =>
      obtain ⟨hc, htoken⟩ := List.forall_mem_cons.mp htoken
      rw [List.cons_append, words_cons hc, ih htoken]
  obtain ⟨c, token, rfl⟩ := List.exists_cons_of_ne_nil hne
  obtain ⟨hc, htoken⟩ := List.forall_mem_cons.mp htoken
  rw [List.append_assoc, List.cons_append, words_append_cons hc, hskip token htoken]

/-- A token that begins and ends with no character of names stands between words. -/
theorem words_append_outer {token : Text} (h : Token.isOuter token = true) (a b : Text) :
    words (a ++ token ++ b) = words a ++ words token ++ words b := by
  simp only [Token.isOuter, Bool.and_eq_true, Option.any_eq_true, Bool.not_eq_true'] at h
  obtain ⟨⟨⟨c, hc, hhead⟩, ⟨d, hd, hlast⟩⟩, -⟩ := h
  obtain ⟨token, rfl⟩ := List.getLast?_eq_some_iff.mp hd
  rw [List.append_assoc, List.append_assoc, List.singleton_append, ← List.append_assoc,
    words_append_cons hlast, words_append_cons hlast, words_nil, List.append_nil]
  congr 1
  rcases token with _ | ⟨e, token⟩
  · simp
  · obtain rfl : e = c := by simpa using hc
    rw [words_append_cons hhead, words_cons hhead]

theorem ne_nil_of_mem_words {text w : Text} (h : w ∈ words text) : w ≠ [] :=
  of_decide_eq_true (List.mem_filter.mp h).2

theorem isIdentifierChar_of_mem_words {text w : Text} (h : w ∈ words text) :
    ∀ c ∈ w, isIdentifierChar c = true := by
  rw [words_eq_atoms, Piece.atoms, List.mem_filterMap] at h
  obtain ⟨piece, hpiece, heq⟩ := h
  cases piece with
  | mark c => cases heq
  | atom x =>
    obtain rfl := Option.some.inj heq
    exact (isProper_of_mem_pieces _ hpiece).2

end Text

namespace Source

/-- A word outside the string literals of a source occurs in it. -/
theorem contains_of_mem_words {source w : Text} (h : w ∈ words (outside source)) :
    contains w source = true := by
  obtain ⟨before, rest, houtside, -⟩ := exists_of_mem_words h
  refine contains_of_contains_outside (fun hquote => ?_) (contains_iff.mpr ⟨before, rest, houtside⟩)
  exact absurd (isIdentifierChar_of_mem_words h _ hquote) (by decide)

theorem isOuter_marker {w : Text} (hw : w ∈ markerNames) :
    Token.isOuter ('@' :: (w ++ ['@'])) = true := by
  have hall : (markerNames.all fun w => Token.isOuter ('@' :: (w ++ ['@']))) = true := by decide
  exact List.all_eq_true.mp hall w hw

/-- What words unfold to are words that are kept. -/
theorem Unfolds.keeps {content : Text → Option Text} {keeps : Text → Prop} {ws us : List Text}
    (h : Unfolds content keeps ws us) : ∀ w ∈ us, keeps w := by
  induction h with
  | nil => exact fun _ hw => nomatch hw
  | drop _ _ ih => exact ih
  | keep hw _ ih => exact List.forall_mem_cons.mpr ⟨hw, ih⟩
  | opened _ _ _ ihcontent ih => exact List.forall_mem_append.mpr ⟨ihcontent, ih⟩

end Source

namespace Source

/-- White space makes no name: a word of the text without it that is among the names is a word of the
text, in the same order, and so is a word that is spelled as the name of a part. -/
structure Spaced (out : Text) (names : List Text) : Prop where
  kept : ((words (withoutBlanks out)).filter (· ∈ names)).Sublist (words out)
  made : ∀ n, Context.generatedName n ∈ words (withoutBlanks out) → Context.generatedName n ∈ words out

end Source

/-! ### What is built -/

/-- The symbol with its operators marked, unless it is a call. -/
def Symbol.marked (s : Symbol) : Symbol :=
  if s.isCall then s else { s with text := Markers.common.mark s.text }

theorem Symbol.isCall_marked (s : Symbol) : s.marked.isCall = s.isCall := by
  rw [marked]
  split <;> rfl

theorem Symbol.marked_of_isCall {s : Symbol} (h : s.isCall = true) : s.marked = s :=
  if_pos h

theorem Symbol.text_marked {s : Symbol} (h : s.isCall = false) :
    s.marked.text = Markers.common.mark s.text := by
  rw [marked, if_neg (by simp [h])]

/-- The texts of the symbols. -/
def Context.contents (ctx : Context) (key : Text) : Option Text :=
  (ctx.symbol? key).map Symbol.text

namespace Markers

theorem mark_ne_nil {text : Text} (h : text ≠ []) : common.mark text ≠ [] := by
  have hne : (common.tokens.all fun entry => !entry.1.isEmpty && !entry.2.isEmpty) = true := by decide
  rw [mark]
  generalize common.tokens = tokens at hne
  induction tokens generalizing text with
  | nil => exact h
  | cons entry tokens ih =>
    simp only [List.all_cons, Bool.and_eq_true, Bool.not_eq_true', List.isEmpty_eq_false_iff] at hne
    refine ih ?_ hne.2
    dsimp only
    split
    · exact h
    · intro hnil
      refine h ?_
      rw [← intercalate_splitAll hne.1.1 text]
      rw [replaceAll] at hnil
      -- nothing is joined to the empty text but a single empty part
      cases hparts : splitAll entry.1 text with
      | nil => rfl
      | cons part parts =>
        rw [hparts] at hnil
        cases parts with
        | nil => simpa [List.intercalate] using hnil
        | cons next parts =>
          rw [List.intercalate_cons_cons] at hnil
          exact absurd (List.append_eq_nil_iff.mp (List.append_eq_nil_iff.mp hnil).1).2 hne.1.2

end Markers

namespace TreeBuilder

section Marks

variable {style : Precedence} {ctx tables : Context}

/-- The tokens of the operators are those that texts are marked with. -/
theorem exists_token (style : Precedence) (ctx : Context) :
    (∀ entry ∈ (common style ctx).binary, ∃ token ∈ Markers.common.tokens, token.2 = entry.2.2) ∧
      ∀ entry ∈ (common style ctx).unary, ∃ token ∈ Markers.common.tokens, token.2 = entry.2 := by
  have hbinary : ((common style ctx).binary.all fun entry =>
      Markers.common.tokens.any fun token => token.2 == entry.2.2) = true := by
    simp only [common, ofDefinition]
    cases style <;> decide
  have hunary : ((common style ctx).unary.all fun entry =>
      Markers.common.tokens.any fun token => token.2 == entry.2) = true := by
    simp only [common, ofDefinition]
    cases style <;> decide
  exact ⟨fun entry hentry => by simpa using List.all_eq_true.mp hbinary entry hentry,
    fun entry hentry => by simpa using List.all_eq_true.mp hunary entry hentry⟩

/-- The texts that are built have no `@` but those of the marks of their operators, unless they are
quoted. -/
structure Markless (ctx tables : Context) : Prop where
  constants : ∀ key, (ctx.constant? key).isSome → '"' ∈ key ∨ '@' ∉ key
  keys : ∀ key, (ctx.symbol? key).isSome → '@' ∉ key
  texts : ∀ key s, tables.symbol? key = some s → '"' ∉ s.text ∧ '@' ∉ s.text
  params : ∀ p ∈ ctx.params, isIdentifier p.name.toList = true

/-- A text that is built is the marked form of a text. -/
theorem Derives.exists_marked (hfree : Markless ctx tables) {key : Text} {node : Node}
    (h : (common style ctx).Derives key node) :
    '(' ∉ key → '"' ∉ key → ∃ text, Source.Marked text key := by
  obtain ⟨hopening, hclosing, -⟩ := Compiler.delimiters_common style
  obtain ⟨hbinary, hunary⟩ := exists_token style ctx
  induction h with
  | constant hkey =>
    intro _ hquote
    have hconstant : (ctx.constant? _).isSome = true := Option.isSome_of_eq_some hkey
    exact ⟨_, .of_not_mem ((hfree.constants _ hconstant).resolve_left hquote)⟩
  | parameter hkey =>
    intro _ _
    obtain ⟨hlt, heq, -⟩ := List.findIdx?_eq_some_iff_getElem.mp hkey
    obtain rfl := eq_of_beq heq
    obtain ⟨-, hchars⟩ := isIdentifierChar_of_isIdentifier (hfree.params _ (List.getElem_mem hlt))
    exact ⟨_, .of_not_mem fun hmem => absurd (hchars _ hmem) (by decide)⟩
  | symbol hkey => exact fun _ _ => ⟨_, .of_not_mem (hfree.keys _ (Option.isSome_of_eq_some hkey))⟩
  | call hkey hcall =>
    intro hopen _
    rcases hkey with rfl | ⟨symbol, hkey, -, -⟩
    · refine absurd ?_ hopen
      rw [(eq_of_splitCall? hopening hclosing hcall).1]
      simp
    · exact ⟨_, .of_not_mem (hfree.keys _ (Option.isSome_of_eq_some hkey))⟩
  | @binary text split left right node hsplit _ _ _ ihleft ihright =>
    intro hopen hquote
    obtain ⟨entry, hentry, htext⟩ := exists_token_of_mem_candidates hsplit
    rw [htext] at hopen hquote ⊢
    simp only [List.mem_append, not_or] at hopen hquote
    obtain ⟨a, ha⟩ := ihleft hopen.1.1 hquote.1.1
    obtain ⟨b, hb⟩ := ihright hopen.2 hquote.2
    obtain ⟨token, htoken, heq⟩ := hbinary entry hentry
    have hmark := Source.Marked.of_mem_tokens htoken
    rw [heq] at hmark
    exact ⟨_, (ha.append hmark).append hb⟩
  | @unary text rest token op operand node hop htoken _ _ _ ih =>
    intro hopen hquote
    obtain rfl := after?_eq_some_iff.mp htoken
    simp only [List.mem_append, not_or] at hopen hquote
    obtain ⟨b, hb⟩ := ih hopen.2 hquote.2
    obtain ⟨entry, hentry, heq⟩ := hunary _ hop
    have hmark := Source.Marked.of_mem_tokens hentry
    rw [heq] at hmark
    exact ⟨_, hmark.append hb⟩

end Marks

section Unfolds

variable {style : Precedence} {ctx tables : Context} {keeps : Text → Prop}

/-- The call that a symbol holds is read as it was put down. -/
theorem callArguments_eq {t : TreeBuilder} (hopening : t.tokens.opening = ['('])
    (hclosing : t.tokens.closing = [')']) (hseparator : t.tokens.separator = [','])
    {name name' inner : Text} {operands : List Text} (hname : '(' ∉ name)
    (hoperands : ∀ x ∈ operands, x ≠ [] ∧ '(' ∉ x ∧ ',' ∉ x)
    (h : t.splitCall? (name ++ ['('] ++ [','].intercalate operands ++ [')']) = some (name', inner)) :
    name' = name ∧ t.callArguments inner = operands := by
  obtain ⟨htext, hopen⟩ := eq_of_splitCall? hopening hclosing h
  obtain ⟨x, rfl, hx⟩ := exists_of_append_cons hopen
    (htext.symm.trans (by simp : _ = name ++ '(' :: ([','].intercalate operands ++ [')'])))
  obtain rfl : x = [] := by
    rcases x with _ | ⟨c, x⟩
    · rfl
    · obtain ⟨rfl, -⟩ := List.cons.inj hx
      exact absurd (by simp) hname
  obtain rfl : inner = [','].intercalate operands := by simpa using hx
  refine ⟨by simp, ?_⟩
  rw [callArguments, hseparator]
  cases operands with
  | nil => rfl
  | cons x operands =>
    have hne : [','].intercalate (x :: operands) ≠ [] := fun hnil => by
      have hx : x <:+: [','].intercalate (x :: operands) :=
        infix_intercalate (List.mem_cons_self ..)
      rw [hnil] at hx
      exact (hoperands x (List.mem_cons_self ..)).1 (List.eq_nil_of_infix_nil hx)
    rw [if_neg hne, splitAll_intercalate (List.cons_ne_nil _ _) fun x hx => (hoperands x hx).2.2]

/-- The tokens of operators begin and end with no characters of names. -/
theorem isOuter_tokens (style : Precedence) (ctx : Context) :
    (∀ entry ∈ (common style ctx).binary, Token.isOuter entry.2.2 = true) ∧
      ∀ entry ∈ (common style ctx).unary, Token.isOuter entry.2 = true := by
  constructor
  all_goals
    rw [← List.all_eq_true]
    simp only [common, ofDefinition]
    cases style <;> decide

/-- A split leaves something on both sides. -/
theorem exists_sides_of_mem_candidates {t : TreeBuilder} {text : Text} {split : Split}
    (h : split ∈ t.candidates text) : ∃ entry ∈ t.binary,
      text = text.take split.place ++ entry.2.2 ++ text.drop (split.place + split.width) ∧
        text.take split.place ≠ [] ∧ text.drop (split.place + split.width) ≠ [] := by
  obtain ⟨entry, hentry, htext⟩ := exists_token_of_mem_candidates h
  simp only [candidates, List.mem_mergeSort, List.mem_filter, Bool.and_eq_true,
    decide_eq_true_eq] at h
  refine ⟨entry, hentry, htext, fun hnil => ?_, fun hnil => ?_⟩
  · have := congrArg List.length hnil
    simp only [List.length_take, List.length_nil] at this
    omega
  · have := List.drop_eq_nil_iff.mp hnil
    omega

/-- Symbols that are marked come from symbols that are laid out. -/
structure Marks (ctx tables : Context) : Prop where
  level : Context.Leveled [] tables
  symbols : ∀ key, ctx.symbol? key = (tables.symbol? key).map Symbol.marked
  words : ∀ key s, tables.symbol? key = some s → key ≠ [] → words key = [key]

namespace Marks

variable {key : Text} {symbol : Symbol} (h : Marks ctx tables) (hkey : ctx.symbol? key = some symbol)
include h hkey

theorem plain (hplain : symbol.isCall = false) : ∃ text, tables.contents key = some text ∧
    symbol.text = Markers.common.mark text ∧ text ≠ [] ∧ '(' ∉ text := by
  rw [h.symbols, Option.map_eq_some_iff] at hkey
  obtain ⟨s, hs, rfl⟩ := hkey
  rw [Symbol.isCall_marked] at hplain
  refine ⟨s.text, by rw [Context.contents, hs, Option.map_some], Symbol.text_marked hplain, ?_,
    (h.level.flat key s hs hplain).resolve_left List.not_mem_nil⟩
  cases h.level.sound key s hs with
  | call => cases hplain
  | text hne => exact hne

theorem call (hcall : symbol.isCall = true) : tables.contents key = some symbol.text ∧
    ∃ name operands, symbol.text = name ++ ['('] ++ [','].intercalate operands ++ [')'] ∧
      '(' ∉ name ∧ ∀ x ∈ operands, x ≠ [] ∧ '(' ∉ x ∧ ',' ∉ x := by
  rw [h.symbols, Option.map_eq_some_iff] at hkey
  obtain ⟨s, hs, rfl⟩ := hkey
  rw [Symbol.isCall_marked] at hcall
  rw [Symbol.marked_of_isCall hcall]
  refine ⟨by rw [Context.contents, hs, Option.map_some], ?_⟩
  cases h.level.sound key s hs with
  | call hname hoperands => exact ⟨_, _, rfl, hname, hoperands⟩
  | text => cases hcall

theorem words_key (hne : key ≠ []) : Text.words key = [key] := by
  rw [h.symbols, Option.map_eq_some_iff] at hkey
  obtain ⟨s, hs, -⟩ := hkey
  exact h.words key s hs hne

end Marks

/-- What is built for the name of a symbol is built for its text. -/
theorem Derives.of_symbol {key : Text} {s : Symbol} {node : Node} (hkey : ctx.symbol? key = some s)
    (hchars : ∀ c ∈ key, isIdentifierChar c = true) (hconstant : ctx.constant? key = none)
    (hparameter : Context.parameterIndex? ctx.params key = none)
    (h : (common style ctx).Derives key node) :
    (s.isCall = false → (common style ctx).Derives s.text node) ∧ (s.isCall = true →
      ∃ name inner f operands root,
        (common style ctx).splitCall? s.text = some (name, inner) ∧
        Function.lookup? (String.ofList name)
          ((common style ctx).callArguments inner).length = some f ∧
        ((common style ctx).callArguments inner).length = operands.length ∧
        (∀ p ∈ ((common style ctx).callArguments inner).zip operands,
          (common style ctx).Derives p.1 p.2) ∧
        (common style ctx).Assembles (.call f) operands root ∧
        node = root.fold (common style ctx).registry ((common style ctx).plain s.text)) := by
  obtain ⟨hopening, hclosing, -⟩ := Compiler.delimiters_common style
  obtain ⟨hbinary, hunary⟩ := isOuter_tokens style ctx
  have houter {before token rest : Text} (h : Token.isOuter token = true)
      (htext : key = before ++ token ++ rest) : False := by
    simp only [Token.isOuter, Bool.and_eq_true, Option.any_eq_true, Bool.not_eq_true'] at h
    obtain ⟨⟨⟨c, hc, hhead⟩, -⟩, -⟩ := h
    have := hchars c (by simp [htext, List.mem_of_head? hc])
    rw [hhead] at this
    cases this
  cases h with
  | constant h => cases hconstant.symm.trans h
  | parameter h => cases hparameter.symm.trans h
  | symbol h hplain hderives =>
    obtain rfl := Option.some.inj (hkey.symm.trans h)
    exact ⟨fun _ => hderives, fun hcall => absurd (hplain.symm.trans hcall) Bool.false_ne_true⟩
  | call htext hcall hlookup hlen hoperands hnode =>
    rcases htext with rfl | ⟨_, h, hiscall, rfl⟩
    · have := hchars '(' (by simp [(eq_of_splitCall? hopening hclosing hcall).1])
      cases this
    · obtain rfl := Option.some.inj (hkey.symm.trans h)
      exact ⟨fun hplain => absurd (hplain.symm.trans hiscall) Bool.false_ne_true,
        fun _ => ⟨_, _, _, _, _, hcall, hlookup, hlen, hoperands, hnode, rfl⟩⟩
  | binary hsplit =>
    obtain ⟨entry, hentry, htext⟩ := exists_token_of_mem_candidates hsplit
    exact (houter (hbinary entry hentry) htext).elim
  | @unary _ rest token _ _ _ hop htoken =>
    exact (houter (hunary _ hop) ((after?_eq_some_iff.mp htoken).trans
      (congrArg (· ++ rest) (List.nil_append token).symm))).elim

/-- The names of the parameters of a tree built by the common builder. -/
abbrev names (ctx : Context) : List Text :=
  ctx.params.map fun p => p.name.toList

theorem reads_parameter {key : Text} {id : Nat}
    (hkey : Context.parameterIndex? ctx.params key = some id) :
    (∃ p ∈ ctx.params, p.name.toList = key) ∧ (Node.parameter id).reads (names ctx) = [key] := by
  obtain ⟨hlt, heq, -⟩ := List.findIdx?_eq_some_iff_getElem.mp hkey
  obtain rfl := eq_of_beq heq
  refine ⟨⟨_, List.getElem_mem hlt, rfl⟩, ?_⟩
  rw [Node.reads, Node.leaves, List.map_singleton, List.getD_eq_getElem?_getD, names,
    List.getElem?_map, List.getElem?_eq_getElem hlt]
  rfl

/-- Arguments unfold to the parameters of the trees that they are built to. -/
theorem unfolds_arguments {content : Text → Option Text} {ns : List Text} {args : List Text}
    {operands : List Node} (hlen : args.length = operands.length)
    (h : ∀ p ∈ args.zip operands, Source.Unfolds content keeps (words p.1) (p.2.reads ns)) :
    Source.Unfolds content keeps (args.flatMap words) (operands.flatMap (Node.reads ns)) := by
  have hall : List.Forall₂ (fun arg operand =>
      Source.Unfolds content keeps (words arg) (Node.reads ns operand)) args operands :=
    List.forall₂_iff_zip.mpr ⟨hlen, fun hp => h _ hp⟩
  clear h hlen
  induction hall with
  | nil => exact .nil
  | cons harg _ ih =>
    rw [List.flatMap_cons, List.flatMap_cons]
    exact harg.append ih

/-- A text unfolds to the parameters of the tree that its marked form is built to. -/
theorem Derives.unfolds (hctx : Marks ctx tables) (hfree : Markless ctx tables)
    (hparams : ∀ p ∈ ctx.params, keeps p.name.toList) {key : Text} {node : Node}
    (h : (common style ctx).Derives key node) : key ≠ [] → '(' ∉ key → '"' ∉ key →
      ∀ text, Source.Marked text key →
        Source.Unfolds tables.contents keeps (words text) (node.reads (names ctx)) := by
  obtain ⟨hopening, hclosing, hseparator⟩ := Compiler.delimiters_common style
  obtain ⟨hbinary, hunary⟩ := exists_token style ctx
  have hreads {head : Head} {operands : List Node} {node : Node}
      (hnode : (common style ctx).Assembles head operands node) (text : Text) :
      (node.fold (common style ctx).registry ((common style ctx).plain text)).reads (names ctx) =
        operands.flatMap (Node.reads (names ctx)) := by
    rw [Node.reads, hnode.leaves_fold, List.map_flatMap]
    rfl
  -- a key without marks stands for itself
  have hself {text key : Text} (hkey : '@' ∉ key) (h : Source.Marked text key) : text = key :=
    h.unique (.of_not_mem hkey)
  induction h with
  | constant => exact fun _ _ _ _ _ => .dropAll _
  | parameter hkey =>
    intro _ _ _ text htext
    obtain ⟨⟨p, hp, rfl⟩, hreads⟩ := @reads_parameter ctx _ _ hkey
    obtain ⟨hne, hchars⟩ := isIdentifierChar_of_isIdentifier (hfree.params p hp)
    obtain rfl := hself (fun hmem => absurd (hchars _ hmem) (by decide)) htext
    rw [words_of_name hne hchars, hreads]
    exact .keep (hparams p hp) .nil
  | symbol hkey hplain _ ih =>
    intro hne _ _ text htext
    obtain rfl := hself (hfree.keys _ (Option.isSome_of_eq_some hkey)) htext
    obtain ⟨text, hcontent, heq, hnonempty, hopen⟩ := hctx.plain hkey hplain
    obtain ⟨s, hs, rfl⟩ := Option.map_eq_some_iff.mp hcontent
    obtain ⟨hquote, hat⟩ := hfree.texts _ s hs
    rw [heq] at ih
    have hunfolds := ih (Markers.mark_ne_nil hnonempty) (Context.not_mem_mark (by decide) hopen)
      (Context.not_mem_mark (by decide) hquote) s.text (Source.marked_mark hat)
    rw [hctx.words_key hkey hne]
    simpa using Source.Unfolds.opened hcontent hunfolds .nil
  | @call key text name inner f operands node hkey hcall _ hlen _ hnode ih =>
    intro hne hopen _ text' htext'
    rcases hkey with rfl | ⟨symbol, hkey, hiscall, rfl⟩
    · refine absurd ?_ hopen
      rw [(eq_of_splitCall? hopening hclosing hcall).1]
      simp
    obtain rfl := hself (hfree.keys _ (Option.isSome_of_eq_some hkey)) htext'
    obtain ⟨hcontent, name', args, htext, hname', hargs⟩ := hctx.call hkey hiscall
    obtain ⟨s, hs, hstext⟩ := Option.map_eq_some_iff.mp hcontent
    obtain ⟨hquote, hat⟩ := hfree.texts _ s hs
    rw [hstext, htext] at hquote hat
    rw [htext] at hcall
    obtain ⟨-, hcallArguments⟩ := callArguments_eq hopening hclosing hseparator hname' hargs hcall
    rw [hcallArguments] at hlen ih
    have hunfolds := unfolds_arguments hlen fun p hp => by
      have hmem := (List.of_mem_zip hp).1
      have hwithin : ∀ c ∈ p.1, c ∈ name' ++ ['('] ++ [','].intercalate args ++ [')'] := fun c hc =>
        List.mem_append_left _ (List.mem_append_right _ ((infix_intercalate hmem).subset hc))
      exact ih p hp (hargs p.1 hmem).1 (hargs p.1 hmem).2.1 (fun h => hquote (hwithin _ h)) p.1
        (.of_not_mem fun h => hat (hwithin _ h))
    have hwords : words symbol.text = words name' ++ args.flatMap words := by
      rw [htext, List.append_assoc, List.append_assoc, List.singleton_append,
        words_append_cons (by decide), words_append_cons (by decide), words_nil, List.append_nil,
        words_intercalate]
    rw [hctx.words_key hkey hne, hreads hnode]
    have hopened : Source.Unfolds tables.contents keeps (words symbol.text)
        ([] ++ operands.flatMap (Node.reads (names ctx))) := by
      rw [hwords]
      exact (Source.Unfolds.dropAll _).append hunfolds
    simpa using Source.Unfolds.opened hcontent hopened .nil
  | @binary key split left right node hsplit hderivesLeft hderivesRight hnode ihleft ihright =>
    intro _ hopen hquote text htext
    obtain ⟨entry, hentry, hkey, hleft, hright⟩ := exists_sides_of_mem_candidates hsplit
    rw [hkey] at hopen hquote htext
    simp only [List.mem_append, not_or] at hopen hquote
    obtain ⟨a, op, b, rfl, ha, hb, hne, hchars⟩ := htext.exists_sides
      (hderivesLeft.exists_marked hfree hopen.1.1 hquote.1.1)
      (hderivesRight.exists_marked hfree hopen.2 hquote.2) (hbinary entry hentry)
    rw [words_append_token hne fun c hc => isIdentifierChar_of_isOperatorChar (hchars c hc),
      hreads hnode]
    simpa using (ihleft hleft hopen.1.1 hquote.1.1 a ha).append
      (ihright hright hopen.2 hquote.2 b hb)
  | @unary key rest token op operand node hop htoken hrest hderives hnode ih =>
    intro _ hopen hquote text htext
    obtain rfl := after?_eq_some_iff.mp htoken
    simp only [List.mem_append, not_or] at hopen hquote
    have htext : Source.Marked text ([] ++ token ++ rest) := htext
    obtain ⟨a, op, b, rfl, ha, hb, hne, hchars⟩ := htext.exists_sides ⟨[], .nil⟩
      (hderives.exists_marked hfree hopen.2 hquote.2) (hunary _ hop)
    obtain rfl := ha.unique .nil
    rw [words_append_token hne fun c hc => isIdentifierChar_of_isOperatorChar (hchars c hc), words_nil,
      List.nil_append, hreads hnode]
    simpa using ih hrest hopen.2 hquote.2 b hb

end Unfolds

end TreeBuilder

/-! ### From the source to the tables -/

/-- What naming literals keeps, sorting out operands does. -/
theorem Context.classify_preserves {P : Context → Prop} {operands : List Text}
    {found found' : List (Nat × Text)} {ctx ctx' : Context}
    (h : classify Registry.standard operands found ctx = .ok (found', ctx'))
    (hasked : ∀ ctx cancelled, P ctx → P { ctx with cancelled })
    (hintern : ∀ (ctx : Context) value, ∀ x ∈ operands, Literal.ofGrammar? x = some value →
      P ctx → P (ctx.intern value x).2) (hctx : P ctx) : P ctx' := by
  induction operands generalizing found ctx with
  | nil =>
    obtain ⟨-, rfl⟩ := Prod.mk.inj (Except.ok.inj h)
    exact hctx
  | cons operand rest ih =>
    have hrest (ctx : Context) (value : Value) (x : Text) (hx : x ∈ rest) :=
      hintern ctx value x (List.mem_cons_of_mem _ hx)
    rw [classify] at h
    split at h
    · exact ih h hrest hctx
    · dsimp only at h
      split at h
      · next value hvalue =>
        exact ih h hrest (hintern _ value operand (List.mem_cons_self ..) hvalue (hasked _ _ hctx))
      · split at h
        · split at h
          · exact ih h hrest (hasked _ _ hctx)
          · cases h
        · cases h

namespace Compiler

/-- The tables of the stages of a compilation: with the text that is left without its literals, after
the calls are taken out, and after the groups are. -/
structure Staged (style : Precedence) (source : Text) (ctx : Context) where
  /-- The text without its literals. -/
  text : Text
  /-- The text without its calls. -/
  plain : Text
  start : Context
  called : Context
  tables : Context
  /-- The tables with the literals among the operands. -/
  sorted : Context
  found : List (Nat × Text)
  extracted : (Context.start source).extractLiterals (common style).definition
    (common style).registry = (text, { start with symbols := [] })
  cleared : Source.Cleared (withoutBlanks (Source.outside source)) text start
  nonempty : text ≠ []
  source_eq : start.source = source
  symbols_start : start.symbols = [(Context.mainName, ⟨text, false⟩)]
  takes : Context.Takes (common style).tokens (.search text) start [plain] called
  flattens : Context.FlattensAll ['('] [')'] (called.setText Context.mainName plain).plainKeys
    (called.setText Context.mainName plain) tables
  classify : Context.classify Registry.standard
    ((tables.markSymbols Markers.common).tableOperands (common style).tokens) []
      (tables.markSymbols Markers.common) = .ok (found, sorted)
  resolved : ctx = { sorted with params := Context.orderedParameters found }

/-- The stages of a source whose operands stand apart. -/
theorem Resolves.staged {style : Precedence} {source : Text} {ctx : Context}
    (h : (common style).Resolves source ctx) (hseparated : Source.Separated source)
    (hclosed : '"' ∉ Source.tail source) : Nonempty (Staged style source ctx) := by
  have hsymbols := Context.symbols_extractLiterals style source
  have hcleared := Source.cleared_extractLiterals style hseparated hclosed
  have hsource := (sourced_extractLiterals style source).source_eq
  rw [Resolves] at h
  change Source.Cleared _ ((Context.start source).extractLiterals (common style).definition
    (common style).registry).1 ((Context.start source).extractLiterals (common style).definition
      (common style).registry).2 at hcleared
  generalize hliterals : (Context.start source).extractLiterals (common style).definition
    (common style).registry = literals at h hsymbols hcleared hsource
  obtain ⟨text, start⟩ := literals
  obtain ⟨hne, text₁, ctx₁, ctx₂, sorted, htakes, hgroups, hclassify, rfl⟩ := exists_stages h
  obtain ⟨hopening, hclosing, -⟩ := delimiters_common style
  rw [hopening, hclosing] at hgroups
  dsimp only at hsymbols htakes hcleared hsource
  rw [hsymbols] at htakes
  exact ⟨⟨text, text₁, { start with symbols := [(Context.mainName, ⟨text, false⟩)] }, ctx₁, ctx₂,
    sorted.2, sorted.1, hliterals.trans (by rw [← hsymbols]),
    ⟨hcleared.laid, hcleared.words, hcleared.kept, hcleared.names⟩, hne, hsource, rfl,
    htakes, hgroups, hclassify, rfl⟩⟩

namespace Staged

variable {style : Precedence} {source : Text} {ctx : Context} (S : Staged style source ctx)

theorem symbols (key : Text) : ctx.symbol? key = (S.tables.symbol? key).map Symbol.marked := by
  have hsymbols : ctx.symbols = (S.tables.markSymbols Markers.common).symbols :=
    (congrArg Context.symbols S.resolved).trans
      (Context.symbols_classify S.classify : S.sorted.symbols = _)
  rw [Context.symbol?, hsymbols]
  exact Context.symbol?_markSymbols Markers.common S.tables key

theorem contents_eq_none {key : Text} (h : ctx.symbol? key = none) : S.tables.contents key = none := by
  rw [S.symbols, Option.map_eq_none_iff] at h
  rw [Context.contents, h, Option.map_none]

theorem symbol?_start {key : Text} {s : Symbol} (h : S.start.symbol? key = some s) :
    key = Context.mainName ∧ s = ⟨S.text, false⟩ := by
  rw [Context.symbol?, S.symbols_start, List.lookup_cons] at h
  split at h
  · next heq => exact ⟨eq_of_beq heq, (Option.some.inj h).symm⟩
  · cases h

/-- The symbols after the calls are taken out. -/
theorem symbols_called : S.called.Indexed ∧ S.called.source = source ∧
    S.called.symbol? Context.mainName = some ⟨S.text, false⟩ := by
  refine S.takes.preserves (P := fun ctx => ctx.Indexed ∧ ctx.source = source ∧
      ctx.symbol? Context.mainName = some ⟨S.text, false⟩)
    (fun ctx text isCall h => ⟨h.1.addSymbol text isCall, h.2.1, Context.symbol?_addSymbol h.2.2 text isCall⟩)
    ⟨?_, S.source_eq, by rw [Context.symbol?, S.symbols_start]; rfl⟩
  intro entry hentry
  rw [S.symbols_start, List.mem_singleton] at hentry
  subst hentry
  rw [Context.symbol?, S.symbols_start]
  rfl

/-- The literals of the text stay in the tables. -/
theorem literals {entry : Text × Text} (h : entry ∈ S.start.literals) : entry ∈ ctx.literals := by
  have hcalled : entry ∈ S.called.literals :=
    S.takes.preserves (P := fun ctx => entry ∈ ctx.literals) (fun _ _ _ h => h) h
  have htables : entry ∈ S.tables.literals :=
    S.flattens.preserves (P := fun ctx => entry ∈ ctx.literals) (fun _ _ h => h) (fun _ _ _ h => h)
      hcalled
  have hsorted : entry ∈ S.sorted.literals := by
    refine Context.classify_preserves (P := fun ctx => entry ∈ ctx.literals) S.classify
      (fun _ _ h => h) (fun ctx value x _ _ h => ?_) htables
    rw [Context.intern]
    split
    · exact h
    · exact List.mem_cons_of_mem _ h
  exact (congrArg Context.literals S.resolved).symm ▸ hsorted

/-- The whole text stays a symbol that is no call. -/
theorem main_plain : ∃ s, S.tables.symbol? Context.mainName = some s ∧ s.isCall = false := by
  obtain ⟨-, -, hmain⟩ := S.symbols_called
  refine S.flattens.preserves
    (P := fun ctx => ∃ s, ctx.symbol? Context.mainName = some s ∧ s.isCall = false)
    (fun ctx text ⟨s, hs, hcall⟩ => ⟨s, Context.symbol?_addSymbol hs text false, hcall⟩)
    (fun ctx key text ⟨s, hs, hcall⟩ => ?_) ?_
  · refine ⟨_, by rw [Context.symbol?_setText, hs, Option.map_some], ?_⟩
    split <;> exact hcall
  · exact ⟨_, by rw [Context.symbol?_setText, hmain, Option.map_some], rfl⟩

/-- What is left without the calls. -/
theorem laid_plain : Laid false S.plain ∧ S.plain ≠ [] := by
  obtain ⟨hopening, hclosing, hseparator⟩ := delimiters_common style
  obtain ⟨text, heq, hlaid, hne, -⟩ :=
    S.takes.laid hopening hclosing rfl S.cleared.laid
  obtain rfl := List.singleton_inj.mp heq
  exact ⟨hlaid, hne S.nonempty⟩

theorem leveled : Context.Leveled (S.called.setText Context.mainName S.plain).plainKeys
    (S.called.setText Context.mainName S.plain) := by
  obtain ⟨hopening, hclosing, hseparator⟩ := delimiters_common style
  obtain ⟨hindexed, -, hmain⟩ := S.symbols_called
  obtain ⟨hlaid, hne⟩ := S.laid_plain
  have hset := hindexed.setText Context.mainName S.plain
  obtain ⟨hsound, -⟩ := S.takes.sound hopening hclosing hseparator S.cleared.laid
    fun key s hs => .inl (S.symbol?_start hs).1
  refine ⟨fun key s hs => ?_, fun key s hs hplain => .inl ((hset.mem_plainKeys hs).mpr hplain),
    fun key hkey s hs => (hset.mem_plainKeys hs).mp hkey⟩
  rw [Context.symbol?_setText] at hs
  obtain ⟨s', hs', rfl⟩ := Option.map_eq_some_iff.mp hs
  by_cases hkey : key = Context.mainName
  · obtain rfl : s' = ⟨S.text, false⟩ := Option.some.inj (hs'.symm.trans (hkey ▸ hmain))
    rw [if_pos hkey]
    exact .text hne hlaid
  · rw [if_neg hkey]
    exact (hsound key s' hs').resolve_left hkey

/-- What is known without the literals of the source is known when the calls are taken out. -/
theorem knowsOnly_called {P : Text → Prop} (hname : ∀ n, P (Context.generatedName n))
    (hmain : P Context.mainName) (h : ((Context.start source).extractLiterals (common style).definition
      (common style).registry).2.KnowsOnly P) : S.called.KnowsOnly P := by
  rw [S.extracted] at h
  refine S.takes.preserves (P := fun ctx => ctx.KnowsOnly P)
    (fun _ text isCall h => h.addSymbol hname text isCall)
    ⟨h.constants, h.literals, fun key hkey => ?_, h.params⟩
  obtain ⟨s, hs⟩ := Option.isSome_iff_exists.mp hkey
  exact (S.symbol?_start hs).1 ▸ hmain

/-- What is known without the literals of the source is known when the operands are sorted out, with
the literals among them. -/
theorem knowsOnly_sorted {P : Text → Prop} (hname : ∀ n, P (Context.generatedName n))
    (hmain : P Context.mainName) (h : ((Context.start source).extractLiterals (common style).definition
      (common style).registry).2.KnowsOnly P)
    (hliteral : ∀ x ∈ (S.tables.markSymbols Markers.common).tableOperands (common style).tokens,
      ∀ value, Literal.ofGrammar? x = some value → P x) : S.sorted.KnowsOnly P := by
  have htables : S.tables.KnowsOnly P := S.flattens.preserves (P := fun ctx => ctx.KnowsOnly P)
    (fun _ text h => h.addSymbol hname text false) (fun _ key text h => h.setText key text)
    ((S.knowsOnly_called hname hmain h).setText _ _)
  exact Context.classify_preserves (P := fun ctx => ctx.KnowsOnly P) S.classify
    (fun _ _ h => ⟨h.constants, h.literals, h.symbols, h.params⟩)
    (fun _ value x hx hvalue h => h.intern hname value (hliteral x hx value hvalue))
    (htables.markSymbols _)

theorem constant?_eq (key : Text) : ctx.constant? key = S.sorted.constant? key := by
  conv_lhs => rw [S.resolved]
  rfl

/-- A foreign character that the text without its literals does not have is in no part of it. -/
theorem formed {q : Char} (hq : Context.IsForeign q) (h : q ∉ S.text) : S.tables.Formed q := by
  obtain ⟨hopening, hclosing, hseparator⟩ := delimiters_common style
  obtain ⟨-, -, hmain⟩ := S.symbols_called
  have hstart : S.start.Formed q := by
    refine ⟨fun entry hentry => ?_, fun key s hs => ?_, fun key s hs hcall => ?_⟩
    · rw [S.symbols_start, List.mem_singleton] at hentry
      rw [hentry, Context.symbol?, S.symbols_start]
      rfl
    · rw [(S.symbol?_start hs).2]
      exact h
    · rw [(S.symbol?_start hs).2] at hcall
      cases hcall
  obtain ⟨hplain, hcalled⟩ := S.takes.formed hopening hclosing hseparator hq
    (List.forall_mem_singleton.mpr h) hstart
  have hset : (S.called.setText Context.mainName S.plain).Formed q :=
    hcalled.setText (hplain _ (List.mem_singleton_self _))
      fun s hs => Option.some.inj (hmain.symm.trans hs) ▸ rfl
  exact S.flattens.formed hq hset fun key hkey s hs =>
    (Context.Indexed.mem_plainKeys hset.found hs).mp hkey

/-- In a source without `@` outside its string literals, this character is only that of marks. -/
theorem markless (h : (common style).Resolves source ctx) (hclosed : '"' ∉ Source.tail source)
    (hmarks : '@' ∉ Source.outside source) : TreeBuilder.Markless ctx S.tables := by
  let IsMarkless (key : Text) : Prop := '"' ∈ key ∨ '@' ∉ key
  have hname (n : Nat) : '@' ∉ Context.generatedName n := Context.IsForeign.mark.not_mem_generatedName n
  have hscanned := Source.scanned_extractLiterals style hclosed
  have hknown : S.sorted.KnowsOnly IsMarkless := by
    refine S.knowsOnly_sorted (fun n => .inr (hname n)) (.inr List.not_mem_nil)
      (hscanned.known.mono fun key hkey => hkey.imp_right fun hkey => ?_) fun x _ value hvalue => .inr ?_
    · rcases hkey with rfl | htame
      · exact List.not_mem_nil
      · exact fun hmem => htame.inert.ends _ hmem (by decide)
    · exact fun hmem => absurd (Literal.isLiteralChar_of_ofGrammar? hvalue _ hmem) (by decide)
  have htext : ((Context.start source).extractLiterals { precedence := style } Registry.standard).1 =
      S.text := congrArg Prod.fst S.extracted
  have hunquoted := S.formed .quote (htext ▸ hscanned.unquoted)
  have hunmarked := S.formed .mark (htext ▸ Source.not_mem_extractLiterals style (by decide)
    fun hmem => hmarks (List.mem_of_mem_filter hmem))
  refine ⟨fun key hkey => ?_, fun key hkey => ?_,
    fun key s hs => ⟨hunquoted.free key s hs, hunmarked.free key s hs⟩,
    fun p hp => h.isIdentifier_of_parameter hp⟩
  · rw [S.constant?_eq] at hkey
    exact (List.mem_append.mp (Context.mem_of_isSome_constant? hkey)).elim
      (hknown.constants key) (hknown.literals key)
  · obtain ⟨s, hs⟩ := Option.isSome_iff_exists.mp hkey
    rcases h.tidy.symbol_cases hs with rfl | ⟨n, -, rfl, -⟩
    · exact List.not_mem_nil
    · exact hname n

theorem marks (h : (common style).Resolves source ctx) : TreeBuilder.Marks ctx S.tables := by
  refine ⟨S.flattens.leveled S.leveled, S.symbols, fun key s hs hne => ?_⟩
  have hkey : ctx.symbol? key = some s.marked := by rw [S.symbols, hs, Option.map_some]
  obtain hmain | ⟨n, -, rfl, -⟩ := h.tidy.symbol_cases hkey
  · exact absurd hmain hne
  · exact words_of_name (Source.generatedName_word n).1 (Source.generatedName_word n).2

/-- What the tables unfold to, the text without its literals does. -/
theorem unfolds {keeps : Text → Prop} (hkeeps : ∀ w, keeps w → contains w source = true) {main : Text}
    (hmain : S.tables.contents Context.mainName = some main) {us : List Text}
    (hus : Source.Unfolds S.tables.contents keeps (Text.words main) us) :
    Source.Unfolds S.tables.contents keeps (Text.words S.text) us := by
  obtain ⟨hopening, hclosing, hseparator⟩ := delimiters_common style
  obtain ⟨-, hsource, hcalled⟩ := S.symbols_called
  have hagrees : ∀ key, Source.Agrees S.tables.contents keeps S.tables key := by
    intro key s hs text us htext hus
    rw [Context.contents, hs, Option.map_some] at htext
    rwa [Option.some.inj htext]
  have hset := S.flattens.agrees hkeeps S.leveled hsource hagrees
  have hothers : ∀ key ≠ Context.mainName, Source.Agrees S.tables.contents keeps S.called key :=
    fun key hkey s hs => hset key s (by
      rw [Context.symbol?_setText, hs, Option.map_some, if_neg hkey])
  have hplain : Source.Unfolds S.tables.contents keeps (Text.words S.plain) us :=
    hset Context.mainName ⟨S.plain, false⟩ (by
      rw [Context.symbol?_setText, hcalled]
      rfl) main us hmain hus
  have htext := (S.takes.unfolds hopening hclosing hseparator hkeeps S.cleared.laid S.source_eq
    (by rw [Context.symbol?, S.symbols_start]; rfl) hothers).2 us (by simpa using hplain)
  exact htext

end Staged

/-- Quotation marks that stand apart without white space stand apart with it. -/
theorem quotesApart_of_withoutBlanks {out : Text}
    (h : Source.QuotesApart (Text.withoutBlanks out)) : Source.QuotesApart out := by
  rintro u v rfl
  have hquote : isBlank '"' = false := by decide
  obtain ⟨hleft, hright⟩ := h (Text.withoutBlanks u) (Text.withoutBlanks v) (by
    rw [withoutBlanks_append]
    simp [Text.withoutBlanks, hquote])
  have hblank {c : Char} (hc : isBlank c = true) : isIdentifierChar c = false ∧ c ≠ '"' :=
    ⟨isIdentifierChar_of_isBlank hc, by
      rintro rfl
      cases hquote.symm.trans hc⟩
  constructor
  · intro c hc
    cases hkind : isBlank c with
    | true => exact hblank hkind
    | false =>
      obtain ⟨u, rfl⟩ := List.getLast?_eq_some_iff.mp hc
      exact hleft c (by simp [Text.withoutBlanks, hkind])
  · intro c hc
    cases hkind : isBlank c with
    | true => exact hblank hkind
    | false =>
      obtain ⟨v, rfl⟩ := List.head?_eq_some_iff.mp hc
      exact hright c (by simp [Text.withoutBlanks, hkind])

/-- The words of the source with names for its string literals are those outside them. -/
theorem filter_words_takeStrings {source : Text}
    (hapart : Source.QuotesApart (Source.outside source)) {keep : Text → Bool}
    (hkeep : ∀ name ∈ (Context.takeStrings source (Context.start source)).2.literals.map Prod.snd,
      keep name = false) :
    (Text.words (Context.takeStrings source (Context.start source)).1).filter keep =
      (Text.words (Source.outside source)).filter keep := by
  have hnames : ∀ name ∈ (Context.takeStrings source (Context.start source)).2.literals.map Prod.snd,
      ∃ n, name = Context.generatedName n :=
    Context.takeStrings_preserves
      (P := fun ctx => ∀ name ∈ ctx.literals.map Prod.snd, ∃ n, name = Context.generatedName n)
      (fun _ value text h => Source.names_intern h value text) source (by simp)
  refine (Context.fills_takeStrings source (Context.start source)).filter_words hapart
    (fun name hname => ?_) hkeep
  obtain ⟨n, rfl⟩ := hnames name hname
  exact Source.generatedName_word n

namespace Resolves

variable {style : Precedence} {source : Text} {ctx : Context} {p : Parameter}

/-- A parameter is a word of the source with names for its string literals, and no such name. -/
theorem parameter_word (h : (common style).Resolves source ctx) (hp : p ∈ ctx.params) :
    isIdentifier p.name.toList = true ∧
      p.name.toList ∈ Text.words (Context.takeStrings source (Context.start source)).1 ∧
      p.name.toList ∉
        (Context.takeStrings source (Context.start source)).2.literals.map Prod.snd := by
  obtain ⟨-, found, hparams, hfound⟩ := h.found
  obtain ⟨entry, hentry, hname⟩ := List.mem_map.mp (Context.mem_orderedParameters.mp (hparams ▸ hp)).2
  rw [← hname]
  exact ⟨hfound.identifier entry hentry,
    mem_words_of_firstWord? (hfound.identifier entry hentry) (hfound.word entry hentry),
    hfound.unknown entry hentry⟩

/-- A parameter is a word of the source outside its string literals. -/
theorem mem_words_of_parameter (h : (common style).Resolves source ctx)
    (hapart : Source.QuotesApart (Source.outside source)) (hp : p ∈ ctx.params) :
    p.name.toList ∈ Text.words (Source.outside source) := by
  obtain ⟨-, hword, hunknown⟩ := h.parameter_word hp
  have hnames : ∀ name ∈ (Context.takeStrings source (Context.start source)).2.literals.map Prod.snd,
      decide (name ∉ (Context.takeStrings source (Context.start source)).2.literals.map Prod.snd) =
        false :=
    fun name hname => decide_eq_false (not_not_intro hname)
  have hkept := filter_words_takeStrings hapart hnames
  exact List.mem_of_mem_filter (hkept ▸ List.mem_filter.mpr ⟨hword, decide_eq_true hunknown⟩)

theorem contains_source_of_parameter (h : (common style).Resolves source ctx)
    (hapart : Source.QuotesApart (Source.outside source)) (hp : p ∈ ctx.params) :
    contains p.name.toList source = true :=
  Source.contains_of_mem_words (h.mem_words_of_parameter hapart hp)

/-- A word of the source is not the name of a part of it. -/
theorem symbol?_eq_none_of_contains (h : (common style).Resolves source ctx) {w : Text}
    (hne : w ≠ []) (hw : contains w source = true) : ctx.symbol? w = none := by
  refine Option.eq_none_iff_forall_not_mem.mpr fun s hs => ?_
  rcases h.tidy.symbol_cases hs with hmain | ⟨n, -, -, hfree⟩
  · exact hne hmain
  · cases hw.symm.trans hfree

theorem symbol?_markerName (h : (common style).Resolves source ctx) {w : Text}
    (hw : w ∈ Source.markerNames) : ctx.symbol? w = none := by
  refine Option.eq_none_iff_forall_not_mem.mpr fun s hs => ?_
  have hhead := (Source.chars_of_mem_markerNames hw).1
  rcases h.tidy.symbol_cases hs with rfl | ⟨n, -, rfl, -⟩ <;> cases hhead

/-- The tree is built from the text that is left. -/
theorem derives_main (h : (common style).Resolves source ctx)
    (hseparated : Source.Separated source) (hclosed : '"' ∉ Source.tail source) {node : Node}
    (hderives : (TreeBuilder.common style ctx).Derives Context.mainName node) :
    ∃ s, ctx.symbol? Context.mainName = some s ∧ s.isCall = false ∧
      (TreeBuilder.common style ctx).Derives s.text node := by
  obtain ⟨S⟩ := h.staged hseparated hclosed
  obtain ⟨s, hs, hcall⟩ := S.main_plain
  have hmain : ctx.symbol? Context.mainName = some s.marked := by rw [S.symbols, hs, Option.map_some]
  have hplain : s.marked.isCall = false := (Symbol.isCall_marked s).trans hcall
  have hparameter : Context.parameterIndex? ctx.params Context.mainName = none := by
    refine List.findIdx?_eq_none_iff.mpr fun p hp => beq_false_of_ne fun hname => ?_
    have := h.isIdentifier_of_parameter hp
    rw [hname] at this
    cases this
  exact ⟨_, hmain, hplain, (hderives.of_symbol hmain (by simp [Context.mainName])
    (h.tidy.constant?_eq_none hmain) hparameter).1 hplain⟩

/-- If white space makes no names, the parameters of a tree stand in their order in the source,
outside its string literals. -/
theorem reads_sublist (h : (common style).Resolves source ctx)
    (hseparated : Source.Separated source) (hclosed : '"' ∉ Source.tail source)
    (hmarks : '@' ∉ Source.outside source)
    (hspaced : Source.Spaced (Source.outside source) (TreeBuilder.names ctx)) {node : Node}
    (hderives : (TreeBuilder.common style ctx).Derives Context.mainName node) :
    (node.reads (TreeBuilder.names ctx)).Sublist (Text.words (Source.outside source)) := by
  obtain ⟨S⟩ := h.staged hseparated hclosed
  have hfree := S.markless h hclosed hmarks
  have hapart := quotesApart_of_withoutBlanks (Source.quotesApart_of_laid hseparated.laid)
  obtain ⟨s, hs, hplain, hderives⟩ := h.derives_main hseparated hclosed hderives
  obtain ⟨text, hmain, htext, hne, hopen⟩ := (S.marks h).plain hs hplain
  obtain ⟨s', hs', rfl⟩ := Option.map_eq_some_iff.mp hmain
  obtain ⟨hquote, hat⟩ := hfree.texts _ s' hs'
  rw [htext] at hderives
  have hsource (w : Text) (hw : w ∈ TreeBuilder.names ctx) : contains w source = true := by
    obtain ⟨p, hp, rfl⟩ := List.mem_map.mp hw
    exact h.contains_source_of_parameter hapart hp
  have hnames (p : Parameter) (hp : p ∈ ctx.params) : p.name.toList ∈ TreeBuilder.names ctx :=
    List.mem_map.mpr ⟨p, hp, rfl⟩
  have hunfolds := S.unfolds hsource hmain
    (hderives.unfolds (S.marks h) hfree hnames (Markers.mark_ne_nil hne)
      (Context.not_mem_mark (by decide) hopen) (Context.not_mem_mark (by decide) hquote) s'.text
      (Source.marked_mark hat))
  -- the text without its literals has no names of parts yet
  have hsublist := hunfolds.sublist fun w hw => S.contents_eq_none <| by
    rcases S.cleared.words w hw with hword | hname
    · refine Option.eq_none_iff_forall_not_mem.mpr fun s hs => ?_
      rcases h.tidy.symbol_cases hs with rfl | ⟨n, -, rfl, hfree⟩
      · exact ne_nil_of_mem_words hw rfl
      · cases (Source.contains_of_mem_words (hspaced.made n hword)).symm.trans hfree
    · obtain ⟨entry, hentry, rfl⟩ := List.mem_map.mp hname
      exact h.tidy.apart _ (List.mem_map_of_mem (S.literals hentry))
  have hkept := S.cleared.kept (fun w => decide (w ∈ TreeBuilder.names ctx))
    fun name hname => decide_eq_false fun hw => ?_
  · have hall := hsublist.filter fun w => decide (w ∈ TreeBuilder.names ctx)
    rw [List.filter_eq_self.mpr fun w hw => decide_eq_true (hunfolds.keeps w hw)] at hall
    exact (hall.trans hkept).trans hspaced.kept
  · -- names of literals do not occur in the source
    obtain ⟨entry, hentry, rfl⟩ := List.mem_map.mp hname
    have hfresh := (h.tidy.fresh _ (List.mem_append_left _ (List.mem_map_of_mem (S.literals hentry)))).1
    cases (hsource _ hw).symm.trans hfresh

end Resolves

end Compiler

end Formula
