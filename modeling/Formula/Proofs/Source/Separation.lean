import Formula.Proofs.Source.FreshNames
import Formula.Proofs.Source.HexNumbers

/-!
# Sources whose operands stand apart

Every literal of a source gives way to a name. In a text that is laid out, a string literal and a
constant in brackets stand apart from all operands, and so does a number, with one exception: a
hexadecimal number that starts with `&` may directly follow a parenthesis that closes, or a bracket
that closes no constant. Behind a string literal or a constant the `&` is an operator, for their names
are in the text before numbers are looked for. Where the exception is excluded, the names are words of
their own, the text stays laid out, and all other words stay as they are.

## Main definitions

* `Source.Separated`: a source whose operands stand apart.
* `Source.Cleared`: what the passes over the literals keep.

## Main results

* `Source.unbracketed_scanSymbol`: the pass over the constants leaves none.
* `Source.cleared_extractLiterals`: the text without its literals.
-/

namespace Formula

open Text

/-! ### Hexadecimal numbers behind operands -/

namespace Piece

/-- Whether pieces, read backwards, start with a constant in brackets. -/
def closesConstant : List Piece → Bool
  | mark r :: atom x :: mark l :: _ => r == ']' && l == '[' && (Constants.symbol? x).isSome
  | _ => false

/-- Whether pieces, read backwards, start with a parenthesis that closes, or with a bracket that closes
no constant. -/
def closes : List Piece → Bool
  | mark c :: behind => (c == ')' || c == ']') && !closesConstant (mark c :: behind)
  | _ => false

/-- Whether pieces, read backwards, start with a mark that ends an operand. -/
def endsMarked : List Piece → Bool
  | mark c :: _ => ends (mark c)
  | _ => false

/-- Whether pieces start with a hexadecimal number and its mark. -/
def startsHex : List Piece → Bool
  | mark c :: atom x :: _ => c == '&' && Extractor.isHexWord x && Extractor.hasValue ('&' :: x)
  | _ => false

/-- No hexadecimal number with its mark directly follows pieces of a kind. The first pieces are those
that stand before, read backwards. -/
def hexApart (kind : List Piece → Bool) : List Piece → List Piece → Bool
  | _, [] => true
  | behind, a :: rest => !(kind behind && startsHex (a :: rest)) && hexApart kind (a :: behind) rest

section HexApart

variable {kind kind' : List Piece → Bool} {us vs behind behind' : List Piece}

theorem hexApart_append (h : hexApart kind behind (us ++ vs) = true) :
    hexApart kind (us.reverse ++ behind) vs = true := by
  induction us generalizing behind with
  | nil => exact h
  | cons a us ih => simpa using ih (Bool.and_eq_true_iff.mp h).2

theorem eq_false_of_hexApart (h : hexApart kind behind (us ++ vs) = true)
    (hhex : startsHex vs = true) : kind (us.reverse ++ behind) = false := by
  have hvs := hexApart_append h
  cases vs with
  | nil => cases hhex
  | cons a vs => simpa [hhex] using (Bool.and_eq_true_iff.mp hvs).1

theorem hexApart_mono (hkind : ∀ u v, us = u ++ v → kind' (u.reverse ++ behind') = true →
      kind (u.reverse ++ behind) = true)
    (h : hexApart kind behind us = true) : hexApart kind' behind' us = true := by
  induction us generalizing behind behind' with
  | nil => rfl
  | cons a us ih =>
    simp only [hexApart, Bool.and_eq_true, Bool.not_eq_true', Bool.and_eq_false_iff] at h ⊢
    refine ⟨h.1.imp_left fun hfalse => Bool.eq_false_of_not_eq_true fun hkind' => ?_,
      ih (fun u v huv => by simpa using hkind (a :: u) v (by rw [huv, List.cons_append])) h.2⟩
    cases hfalse.symm.trans (hkind [] _ rfl hkind')

/-- A name in place of other pieces does not bring hexadecimal numbers behind pieces of a kind. -/
theorem hexApart_replace {x : Text} {m : List Piece} (hhex : Extractor.isHexWord x = false)
    (hkind : ∀ q behind, kind (q ++ atom x :: behind) = true →
      kind (q ++ (m.reverse ++ behind)) = true)
    (h : hexApart kind behind (us ++ (m ++ vs)) = true) :
    hexApart kind behind (us ++ atom x :: vs) = true := by
  induction us generalizing behind with
  | nil =>
    rw [List.nil_append, hexApart, Bool.and_eq_true]
    exact ⟨by simp [startsHex], hexApart_mono (fun u _ _ => hkind u.reverse behind) (hexApart_append h)⟩
  | cons a us ih =>
    simp only [List.cons_append, hexApart, Bool.and_eq_true, Bool.not_eq_true',
      Bool.and_eq_false_iff] at h ⊢
    refine ⟨h.1.imp_right fun hfirst => ?_, ih h.2⟩
    cases a with
    | atom => rfl
    | mark c =>
      cases us with
      | nil => simp [startsHex, hhex]
      | cons b us => cases b <;> exact hfirst

end HexApart

/-- Pieces that do not matter for hexadecimal numbers: a quotation mark, and a name in its place. -/
inductive Alike : Piece → Piece → Prop
  | refl (a : Piece) : Alike a a
  | name {x : Text} (hsymbol : Constants.symbol? x = none) (hhex : Extractor.isHexWord x = false) :
      Alike (mark '"') (atom x)

section Alike

variable {us vs behind behind' : List Piece}

theorem closesConstant_congr {c : Char} (h : List.Forall₂ Alike us vs) :
    closesConstant (mark c :: us) = closesConstant (mark c :: vs) := by
  cases h with
  | nil => rfl
  | @cons a b us vs hab h =>
    cases hab with
    | name hsymbol =>
      cases h with
      | nil => rfl
      | @cons _ b _ _ _ _ => cases b <;> simp [closesConstant, hsymbol]
    | refl =>
      cases a with
      | mark => rfl
      | atom x =>
        cases h with
        | nil => rfl
        | @cons a _ _ _ hab _ =>
          cases hab with
          | refl => cases a <;> rfl
          | name => simp [closesConstant]

theorem closes_congr (h : List.Forall₂ Alike us vs) : closes us = closes vs := by
  cases h with
  | nil => rfl
  | @cons a b us vs hab h =>
    cases hab with
    | name => rfl
    | refl =>
      cases a with
      | atom => rfl
      | mark c => rw [closes, closes, closesConstant_congr h]

theorem startsHex_congr (h : List.Forall₂ Alike us vs) : startsHex us = startsHex vs := by
  cases h with
  | nil => rfl
  | @cons a b us vs hab h =>
    cases hab with
    | name =>
      cases h with
      | nil => rfl
      | @cons a _ _ _ _ _ => cases a <;> rfl
    | refl =>
      cases a with
      | atom => rfl
      | mark c =>
        cases h with
        | nil => rfl
        | @cons a _ _ _ hab _ =>
          cases hab with
          | refl => cases a <;> rfl
          | name _ hhex => simp [startsHex, hhex]

/-- Names in place of quotation marks do not bring hexadecimal numbers behind what closes. -/
theorem hexApart_congr (hbehind : List.Forall₂ Alike behind behind') (h : List.Forall₂ Alike us vs) :
    hexApart closes behind us = hexApart closes behind' vs := by
  induction h generalizing behind behind' with
  | nil => rfl
  | cons hab h ih =>
    rw [hexApart, hexApart, closes_congr hbehind, startsHex_congr (.cons hab h), ih (.cons hab hbehind)]

end Alike

/-- What closes behind a name closes behind a bracket in its place. -/
theorem closes_bracket {x : Text} {q behind behind' : List Piece}
    (h : closes (q ++ atom x :: behind) = true) : closes (q ++ mark ']' :: behind') = true := by
  match q with
  | [] | atom _ :: _ => cases h
  | [mark c] =>
    rw [List.singleton_append, closes, Bool.and_eq_true] at h
    exact Bool.and_eq_true_iff.mpr ⟨h.1, rfl⟩
  | [mark c, atom y] | [mark c, mark d] =>
    rw [List.cons_append, closes, Bool.and_eq_true] at h
    exact Bool.and_eq_true_iff.mpr ⟨h.1, by simp [closesConstant]⟩
  | mark c :: a :: b :: q =>
    cases a with
    | mark => exact h
    | atom => cases b <;> exact h

/-- Where no constant and no quotation mark is left, an operand ends only with what closes. -/
theorem closes_of_endsMarked {us : List Piece} (hquote : mark '"' ∉ us)
    (hclear : ∀ u x v, us = u ++ mark '[' :: atom x :: mark ']' :: v → Constants.symbol? x = none)
    {u v : List Piece} (hus : us = u ++ v) (h : endsMarked u.reverse = true) :
    closes u.reverse = true := by
  obtain ⟨w, hw⟩ : ∃ w, u.reverse = w := ⟨_, rfl⟩
  rw [hw] at h ⊢
  obtain rfl : u = w.reverse := by rw [← hw, List.reverse_reverse]
  rcases w with _ | ⟨c | _, w⟩
  · cases h
  · have hc : c ≠ '"' := by
      rintro rfl
      exact hquote (by simp [hus])
    simp only [endsMarked, ends, Bool.or_eq_true, beq_iff_eq, hc, false_or] at h
    simp only [closes, Bool.and_eq_true, Bool.or_eq_true, beq_iff_eq, Bool.not_eq_true']
    refine ⟨h, Bool.eq_false_of_not_eq_true fun hconstant => ?_⟩
    -- a constant is a word between its indicators, and none is left
    rcases w with _ | ⟨_ | x, _ | ⟨l | _, w⟩⟩
    · cases hconstant
    · cases hconstant
    · cases hconstant
    · cases hconstant
    · cases hconstant
    · simp only [closesConstant, Bool.and_eq_true, beq_iff_eq] at hconstant
      obtain ⟨⟨rfl, rfl⟩, hsymbol⟩ := hconstant
      rw [hclear w.reverse x v (by simp [hus])] at hsymbol
      cases hsymbol
    · cases hconstant
  · cases h

end Piece

/-! ### Numbers -/

theorem Extractor.Numeral.pieces {number : Text} (h : Numeral number) :
    ∃ u word, Text.pieces number = u ++ [.atom word] ∧ isFunctionName word = false ∧
      ((∃ x, (Text.pieces number).head? = some (.atom x)) ∨
        u = [.mark '&'] ∧ isHexWord word = true) := by
  obtain ⟨pre, word, rfl, hne, hword, hname, hpre, hfirst⟩ := h.exists_word
  have hpieces : Text.pieces (pre ++ word) = Text.pieces pre ++ [.atom word] := by
    rw [pieces_append (.inl hpre), pieces_of_name hne hword]
  refine ⟨Text.pieces pre, word, hpieces, hname, ?_⟩
  rcases hfirst with ⟨c, hc, hchar⟩ | ⟨rfl, hhex⟩
  · exact .inl (exists_atom_of_head? hc hchar)
  · exact .inr ⟨by decide, hhex⟩

/-- A number that touches no other word stands in a gap. -/
theorem Text.Laid.gap_of_numeral {before number rest : Text} (hnumber : Extractor.Numeral number)
    (hvalue : Extractor.hasValue number = true) (hisolated : IsolatedBy before rest)
    (hpieces : pieces (before ++ number ++ rest) = pieces before ++ (pieces number ++ pieces rest))
    (hlaid : Laid true (before ++ number ++ rest))
    (hhex : Piece.hexApart Piece.endsMarked [] (pieces (before ++ number ++ rest)) = true) :
    Gap before rest := by
  obtain ⟨u, word, hword, hname, hfirst⟩ := hnumber.pieces
  rw [Laid, hpieces] at hlaid
  rw [hpieces] at hhex
  obtain ⟨-, hchain, hbefore⟩ := List.isChain_append.mp hlaid
  obtain ⟨-, -, hrest⟩ := List.isChain_append.mp hchain
  constructor
  · intro a ha
    rcases hfirst with ⟨x, hx⟩ | ⟨rfl, hhexword⟩
    · rcases Piece.ends_or_starts (hbefore a ha (.atom x) (by simp [hx])) with
        hends | hstarts | ⟨-, hopens⟩
      · exact hends
      · cases hstarts
      · cases a <;> cases hopens
    · obtain ⟨v, hv⟩ := List.getLast?_eq_some_iff.mp ha
      cases a with
      | mark c =>
        have hnumeral : number = '&' :: word := by
          rw [← textAll_pieces number, hword]
          simp [Piece.textAll, Piece.text]
        have hstarts : Piece.startsHex (pieces number ++ pieces rest) = true := by
          rw [hword]
          simp [Piece.startsHex, hhexword, ← hnumeral, hvalue]
        have := Piece.eq_false_of_hexApart hhex hstarts
        rwa [hv, List.reverse_append, List.append_assoc] at this
      | atom y =>
        -- the last character of the text before is one of names
        obtain ⟨htext, -, -⟩ := pieces_split hv
        obtain ⟨hne, hy⟩ := isProper_of_mem_pieces (.atom y) (hv ▸ List.mem_append_right v (by simp))
        obtain ⟨c, hc⟩ := List.getLast?_isSome.mpr hne |> Option.isSome_iff_exists.mp
        have := hisolated.left c (by
          rw [htext, Piece.textAll_cons, Piece.textAll_nil, List.append_nil, Piece.text,
            List.getLast?_append_of_ne_nil _ hne]
          exact hc)
        rw [hy c (List.mem_of_getLast? hc)] at this
        cases this
  · intro b hb
    rcases Piece.ends_or_starts (hrest (.atom word) (by simp [hword]) b hb) with
      hends | hstarts | ⟨-, hopens⟩
    · cases hends
    · exact hstarts
    · cases b with
      | atom y => cases hopens
      | mark c => simp [Piece.opensCall, hname] at hopens

namespace Source

/-! ### Names in place of literals -/

theorem isHexWord_generatedName (n : Nat) :
    Extractor.isHexWord (Context.generatedName n) = false := rfl

/-- No generated name is in the name of a constant, for it has digits. -/
theorem symbol?_of_generatedName {n : Nat} {x : Text} (hx : ∀ c ∈ Context.generatedName n, c ∈ x) :
    Constants.symbol? x = none := by
  refine Option.not_isSome_iff_eq_none.mp fun hsome => ?_
  obtain ⟨digits, hdigits, hname⟩ := Context.generatedName_eq n
  obtain ⟨c, hc⟩ : ∃ c, c ∈ digits := by
    refine List.exists_mem_of_ne_nil _ fun hnil => ?_
    have hpadded : digits = padded 4 n := List.append_cancel_left (hname.symm.trans rfl)
    have hlen := congrArg List.length (hpadded.symm.trans hnil)
    rw [padded, List.length_append, List.length_replicate, List.length_nil] at hlen
    omega
  have hmem : c ∈ Context.generatedName n := hname ▸ List.mem_append_right _ hc
  have hblank := Literal.isBlank_of_isWordChar (Context.Sorted.isWordChar_of_mem_generatedName hmem)
  have hletter := mem_constantLetters hsome c (Literal.mem_trimBoth (hx c hmem) hblank)
  have hall : (constantLetters.all fun c => !c.isDigit) = true := by decide
  rcases eq_or_of_toLower (c := c) rfl with heq | ⟨-, hupper⟩
  · have := List.all_eq_true.mp hall _ hletter
    rw [← heq, hdigits c hc] at this
    cases this
  · have := hdigits c hc
    rw [isDigit_iff] at this
    omega

/-- What the passes over the literals keep of the text outside the string literals: it is laid out,
and its words are words of that text, in the same order, and names of literals. -/
structure Cleared (out text : Text) (ctx : Context) : Prop where
  laid : Laid true text
  words : ∀ w ∈ words text, w ∈ Text.words out ∨ w ∈ ctx.literals.map Prod.snd
  kept : ∀ p : Text → Bool, (∀ name ∈ ctx.literals.map Prod.snd, p name = false) →
    ((Text.words text).filter p).Sublist ((Text.words out).filter p)
  names : ∀ name ∈ ctx.literals.map Prod.snd, ∃ n, name = Context.generatedName n

/-- A literal in a gap gives way to its name. -/
theorem Cleared.replace {out before literal rest : Text} {ctx : Context}
    (h : Cleared out (before ++ literal ++ rest) ctx)
    (hpieces : pieces (before ++ literal ++ rest) =
      pieces before ++ (pieces literal ++ pieces rest)) (hgap : Gap before rest) (value : Value) :
    Cleared out (before ++ (ctx.intern value literal).1 ++ rest) (ctx.intern value literal).2 := by
  have hnames := names_intern h.names value literal
  obtain ⟨n, hn⟩ := hnames _ (Context.mem_literals_intern_self ctx value literal)
  obtain ⟨hne, hchars⟩ := hn ▸ generatedName_word n
  have hmore {name : Text} (hname : name ∈ ctx.literals.map Prod.snd) :
      name ∈ (ctx.intern value literal).2.literals.map Prod.snd :=
    Context.mem_literals_intern hname value literal
  have hlaid := h.laid
  rw [Laid, hpieces] at hlaid
  obtain ⟨hbefore, hchain, -⟩ := List.isChain_append.mp hlaid
  obtain ⟨-, hrest, -⟩ := List.isChain_append.mp hchain
  have hwords : Text.words (before ++ literal ++ rest) =
      Text.words before ++ (Text.words literal ++ Text.words rest) := by
    simp only [words_eq_atoms, hpieces, Piece.atoms_append]
  have hwords' : Text.words (before ++ (ctx.intern value literal).1 ++ rest) =
      Text.words before ++ (ctx.intern value literal).1 :: Text.words rest :=
    words_isolated hne hchars hgap.isolatedBy
  refine ⟨hgap.laid hbefore hrest hne hchars, ?_, ?_, hnames⟩
  · intro w hw
    rw [hwords', List.mem_append, List.mem_cons] at hw
    have hold := h.words w
    rw [hwords, List.mem_append, List.mem_append] at hold
    rcases hw with hw | rfl | hw
    · exact (hold (.inl hw)).imp_right hmore
    · exact .inr (Context.mem_literals_intern_self ctx value literal)
    · exact (hold (.inr (.inr hw))).imp_right hmore
  · intro p hp
    refine List.Sublist.trans ?_ (h.kept p fun name hname => hp name (hmore hname))
    rw [hwords, hwords', List.filter_append, List.filter_append, List.filter_append,
      List.filter_cons_of_neg (by simp [hp _ (Context.mem_literals_intern_self ctx value literal)])]
    exact (List.Sublist.refl _).append (List.sublist_append_right _ _)

/-- Where a text is laid out, a quotation mark stands in a gap. -/
theorem gap_of_quote {before out : Text} (h : Laid true (before ++ '"' :: out)) :
    Laid true before ∧ Laid true out ∧ Gap before out := by
  obtain ⟨hbefore, hout, hleft, hright⟩ := (laid_append_cons isIdentifierChar_quote).mp h
  refine ⟨hbefore, hout, fun a ha => ?_, fun b hb => ?_⟩
  · rcases Piece.ends_or_starts (hleft a ha) with hends | hstarts | ⟨-, hopens⟩
    · exact hends
    · cases hstarts
    · cases a <;> cases hopens
  · rcases Piece.ends_or_starts (hright b hb) with hends | hstarts | ⟨-, hopens⟩
    · cases hends
    · exact hstarts
    · cases hopens

theorem quotesApart_of_laid {out : Text} (h : Laid true out) : QuotesApart out := by
  rintro u v rfl
  obtain ⟨-, -, hgap⟩ := gap_of_quote h
  refine ⟨fun c hc => ⟨hgap.isolatedBy.left c hc, ?_⟩, fun c hc => ⟨hgap.isolatedBy.right c hc, ?_⟩⟩
  · rintro rfl
    obtain ⟨u, rfl⟩ := List.getLast?_eq_some_iff.mp hc
    have := hgap.left (.mark '"') (by rw [pieces_append_cons isIdentifierChar_quote]; simp [pieces])
    cases this
  · rintro rfl
    obtain ⟨v, rfl⟩ := List.head?_eq_some_iff.mp hc
    have := hgap.right (.mark '"') (by rw [pieces_cons isIdentifierChar_quote]; rfl)
    cases this

/-- Names in place of quotation marks leave a text laid out, and its pieces alike. -/
theorem Fills.laid {isName : Text → Prop} {out filled : Text} (h : Fills isName out filled)
    (hnames : ∀ name, isName name → ∃ n, name = Context.generatedName n) (hlaid : Laid true out) :
    Laid true filled ∧ List.Forall₂ Piece.Alike (pieces out) (pieces filled) ∧
      ((∀ b ∈ (pieces out).head?, b.starts = false) →
        ∀ b ∈ (pieces filled).head?, b.starts = false) := by
  have hsame (us : List Piece) : List.Forall₂ Piece.Alike us us :=
    List.forall₂_same.mpr fun a _ => .refl a
  induction h with
  | refl => exact ⟨hlaid, hsame _, fun h => h⟩
  | @name before name out filled hname _ ih =>
    obtain ⟨hbefore, hout, hgap⟩ := gap_of_quote hlaid
    obtain ⟨hfilled, halike, hhead⟩ := ih hout
    have hgap' : Gap before filled := ⟨hgap.left, hhead hgap.right⟩
    obtain ⟨n, rfl⟩ := hnames name hname
    obtain ⟨hne, hchars⟩ := generatedName_word n
    rw [pieces_append_cons isIdentifierChar_quote, pieces_isolated hne hchars hgap'.isolatedBy]
    refine ⟨hgap'.laid hbefore hfilled hne hchars, List.rel_append (hsame _) (.cons
      (.name (symbol?_of_generatedName fun _ h => h) (isHexWord_generatedName n)) halike), fun hstart => ?_⟩
    cases hpieces : pieces before with
    | nil =>
      rw [hpieces] at hstart
      cases hstart (.mark '"') rfl
    | cons a u =>
      rw [hpieces] at hstart
      exact hstart

/-- The operands of a source stand apart: outside its string literals, and without white space, the
text is laid out, and no hexadecimal number that starts with `&` directly follows a parenthesis that
closes, or a bracket that closes no constant. -/
structure Separated (source : Text) : Prop where
  laid : Laid true (Text.withoutBlanks (outside source))
  hex : Piece.hexApart Piece.closes [] (pieces (Text.withoutBlanks (outside source))) = true

/-! ### The pass over the constants -/

theorem value?_of_symbol? {x : Text} {name : String} (h : Constants.symbol? x = some name) :
    (Constants.value? name).isSome = true := by
  have haliases : (Constants.aliases.all fun p => (Constants.value? p.2).isSome) = true := by decide
  have hnamed : (Constants.named.all fun p => (Constants.value? p.1).isSome) = true := by decide
  rw [Constants.symbol?] at h
  dsimp only at h
  split at h
  · next hfind =>
    obtain rfl := Option.some.inj h
    exact List.all_eq_true.mp haliases _ (List.mem_of_find?_eq_some hfind)
  · obtain ⟨p, hfind, rfl⟩ := Option.map_eq_some_iff.mp h
    exact List.all_eq_true.mp hnamed _ (List.mem_of_find?_eq_some hfind)

/-- No constant in brackets starts in a text before a byte offset. -/
def UnbracketedBelow (offset : Nat) (text : Text) : Prop :=
  ∀ u inner v, text = u ++ '[' :: (inner ++ ']' :: v) → byteLength u < offset →
    Constants.symbol? inner = none

/-- A scan for constants from a place on goes to the first bracket that opens: there is a constant, or
none, or there is no constant at all. -/
theorem scanSymbol_cases (style : Precedence) (passed ahead : Text) :
    (Extractor.scanSymbol { precedence := style } (passed ++ ahead) (byteLength passed) = .exhausted ∧
      ∀ u inner v, ahead = u ++ '[' :: (inner ++ ']' :: v) → Constants.symbol? inner = none) ∨
    ∃ skipped tail, ahead = skipped ++ '[' :: tail ∧ '[' ∉ skipped ∧
      ((Extractor.scanSymbol { precedence := style } (passed ++ ahead) (byteLength passed) =
          .invalid (byteLength (passed ++ skipped)) ∧
        ∀ inner v, tail = inner ++ ']' :: v → Constants.symbol? inner = none) ∨
      ∃ name rest value, tail = name ++ ']' :: rest ∧
        Extractor.scanSymbol { precedence := style } (passed ++ ahead) (byteLength passed) =
          .found (byteLength (passed ++ skipped))
            (byteLength (passed ++ skipped) + byteLength ('[' :: (name ++ [']']))) value) := by
  have hleft : ({ precedence := style } : Definition).symbolIndicators.1.toList = ['['] :=
    (by decide : "[".toList = ['['])
  have hright : ({ precedence := style } : Definition).symbolIndicators.2.toList = [']'] :=
    (by decide : "]".toList = [']'])
  have hnone {inner v : Text} (hmem : ']' ∉ inner ++ ']' :: v) : False := hmem (by simp)
  simp only [Extractor.scanSymbol, hleft, hright, splitAtByte?_append, Option.bind_some]
  by_cases hopen : '[' ∈ ahead
  · obtain ⟨skipped, tail, rfl, hskipped⟩ := List.eq_append_cons_of_mem hopen
    rw [cut?_append_cons hskipped]
    by_cases hclose : ']' ∈ tail
    · obtain ⟨name, rest, rfl, hname⟩ := List.eq_append_cons_of_mem hclose
      refine .inr ⟨skipped, _, rfl, hskipped, ?_⟩
      dsimp only
      rw [cut?_append_cons hname]
      dsimp only
      cases hvalue : (Constants.symbol? name).bind Constants.value? with
      | some value =>
        refine .inr ⟨name, rest, value, rfl, ?_⟩
        dsimp only
        congr 1
        · rw [byteLength_append]
        · simp only [byteLength_append, byteLength_cons, byteLength_nil]
          omega
      | none =>
        refine .inl ⟨by dsimp only; rw [byteLength_append], fun inner v htail => ?_⟩
        refine Option.not_isSome_iff_eq_none.mp fun hsome => ?_
        -- a name of a constant has no bracket, so it is all up to the first one
        have hinner : ']' ∉ inner := fun hmem => by
          have hletter := mem_constantLetters hsome ']' (Literal.mem_trimBoth hmem (by decide))
          exact absurd hletter (by decide)
        obtain ⟨x, rfl, hx⟩ := exists_of_append_cons hname htail
        rcases x with _ | ⟨c, x⟩
        · rw [List.append_nil] at hsome
          obtain ⟨constant, hconstant⟩ := Option.isSome_iff_exists.mp hsome
          rw [hconstant, Option.bind_some] at hvalue
          have := value?_of_symbol? hconstant
          rw [hvalue] at this
          cases this
        · obtain ⟨rfl, -⟩ := List.cons.inj hx
          exact hinner (by simp)
    · refine .inl ⟨?_, fun u inner v hahead => ?_⟩
      · dsimp only
        rw [cut?_eq_none (List.mem_singleton_self _) hclose]
      · obtain ⟨x, rfl, hx⟩ := exists_of_append_cons hskipped hahead
        rcases x with _ | ⟨c, x⟩
        · exact (hnone ((List.cons.inj hx).2 ▸ hclose)).elim
        · exact absurd (by simp [(List.cons.inj hx).2]) hclose
  · refine .inl ⟨by rw [cut?_eq_none (List.mem_singleton_self _) hopen], fun u inner v hahead => ?_⟩
    exact absurd (by simp [hahead]) hopen

/-- A character stands in the first of two texts, or in the second one. -/
theorem exists_or_exists_of_append {passed ahead u w : Text} {c : Char}
    (h : passed ++ ahead = u ++ c :: w) :
    (∃ t, passed = u ++ c :: t ∧ w = t ++ ahead) ∨ ∃ x, u = passed ++ x ∧ ahead = x ++ c :: w := by
  rcases List.append_eq_append_iff.mp h with ⟨x, rfl, rfl⟩ | ⟨x, rfl, hx⟩
  · exact .inr ⟨x, rfl, rfl⟩
  · rcases x with _ | ⟨d, x⟩
    · exact .inr ⟨[], by simp, hx.symm⟩
    · obtain ⟨rfl, rfl⟩ := List.cons.inj hx
      exact .inl ⟨x, rfl, rfl⟩

theorem byteLength_lt_append_cons (u : Text) (c : Char) (t : Text) :
    byteLength u < byteLength (u ++ c :: t) := by
  have := Char.utf8Size_pos c
  rw [byteLength_append, byteLength_cons]
  omega

/-- A name in place of a constant brings no constant in front of it. -/
theorem UnbracketedBelow.replace {passed skipped name rest literal : Text} (hskipped : '[' ∉ skipped)
    (hname : ∃ n, name = Context.generatedName n)
    (h : UnbracketedBelow (byteLength passed) (passed ++ (skipped ++ literal))) :
    UnbracketedBelow (byteLength (passed ++ skipped ++ name)) (passed ++ skipped ++ name ++ rest) := by
  obtain ⟨n, rfl⟩ := hname
  have hnot {c : Char} (hc : isIdentifierChar c = false) : c ∉ Context.generatedName n := fun hmem => by
    cases hc.symm.trans ((generatedName_word n).2 c hmem)
  intro u inner v htext hlt
  rw [List.append_assoc, List.append_assoc] at htext
  rcases exists_or_exists_of_append htext with ⟨t, rfl, hinner⟩ | ⟨x, rfl, hx⟩
  · rw [← List.append_assoc] at hinner
    rcases exists_or_exists_of_append hinner.symm with ⟨z, hz, -⟩ | ⟨y, rfl, hy⟩
    · refine h u inner (z ++ literal) ?_ (byteLength_lt_append_cons u '[' t)
      rw [List.append_assoc, List.cons_append, ← List.append_assoc t, hz]
      simp
    · obtain ⟨y, rfl, -⟩ := exists_of_append_cons (hnot (by decide)) hy
      exact symbol?_of_generatedName (n := n) fun c hc => by simp [hc]
  · rw [← List.append_assoc] at hx
    have hopen : '[' ∉ skipped ++ Context.generatedName n := by
      simp [hskipped, hnot (by decide : isIdentifierChar '[' = false)]
    obtain ⟨y, rfl, -⟩ := exists_of_append_cons hopen hx
    simp only [byteLength_append] at hlt
    omega

/-- The pass over the constants leaves none behind the place that it has come to. -/
theorem unbracketed_scanSymbol (style : Precedence) (count : Nat) (passed ahead : Text) {ctx : Context}
    (hnames : ∀ name ∈ ctx.literals.map Prod.snd, ∃ n, name = Context.generatedName n)
    (h : UnbracketedBelow (byteLength passed) (passed ++ ahead)) : ∀ u inner v,
      (Context.pass (fun _ => Extractor.scanSymbol { precedence := style }) count (passed ++ ahead)
        (byteLength passed) ctx).1 = u ++ '[' :: (inner ++ ']' :: v) →
          Constants.symbol? inner = none := by
  have hle (passed ahead : Text) : byteLength passed ≤ byteLength (passed ++ ahead) := by
    rw [byteLength_append]
    omega
  induction hlen : ahead.length using Nat.strongRecOn generalizing count passed ahead ctx with
  | _ n ih =>
  rcases scanSymbol_cases style passed ahead with ⟨hscan, hclear⟩ |
    ⟨skipped, tail, rfl, hskipped, ⟨hscan, hclear⟩ | ⟨name, rest, value, rfl, hscan⟩⟩
  · rw [Context.pass, dif_pos (hle _ _), hscan]
    intro u inner v htext
    rcases exists_or_exists_of_append htext with ⟨t, rfl, -⟩ | ⟨x, rfl, hx⟩
    · exact h u inner v htext (byteLength_lt_append_cons u '[' t)
    · exact hclear x inner v hx
  · have htext : passed ++ (skipped ++ '[' :: tail) = passed ++ skipped ++ ['['] ++ tail := by simp
    have hnext : max (byteLength (passed ++ skipped)) (byteLength passed) +
        Context.stepAt (passed ++ (skipped ++ '[' :: tail))
          (max (byteLength (passed ++ skipped)) (byteLength passed)) =
        byteLength (passed ++ skipped ++ ['[']) := by
      rw [Nat.max_eq_left (hle _ _), ← List.append_assoc, Context.stepAt, splitAtByte?_append,
        byteLength_append (passed ++ skipped)]
      rfl
    rw [Context.pass_of_invalid (hle _ _) hscan, hnext, htext]
    refine ih tail.length (by simp [← hlen]; omega) _ _ tail hnames (fun u inner v htext' hlt => ?_) rfl
    rw [← htext] at htext'
    rcases exists_or_exists_of_append htext' with ⟨t, rfl, -⟩ | ⟨x, rfl, hx⟩
    · exact h u inner v htext' (byteLength_lt_append_cons u '[' t)
    · obtain ⟨y, rfl, hy⟩ := exists_of_append_cons hskipped hx
      rcases y with _ | ⟨c, y⟩
      · exact hclear inner v (List.cons.inj hy).2
      · obtain ⟨rfl, -⟩ := List.cons.inj hy
        simp only [byteLength_append, byteLength_cons, byteLength_nil] at hlt
        omega
  · have htext : passed ++ (skipped ++ '[' :: (name ++ ']' :: rest)) =
        passed ++ skipped ++ '[' :: (name ++ [']']) ++ rest := by simp
    have hslice := slice?_append (passed ++ skipped) ('[' :: (name ++ [']'])) rest
    have hplace : byteLength passed ≤ byteLength (passed ++ skipped) ∧ byteLength (passed ++ skipped) <
        byteLength (passed ++ skipped) + byteLength ('[' :: (name ++ [']'])) :=
      ⟨hle _ _, Nat.lt_add_of_pos_right (by
        have := Char.utf8Size_pos '['
        rw [byteLength_cons]
        omega)⟩
    rw [Context.pass, dif_pos (hle _ _), hscan]
    dsimp only
    rw [dif_pos hplace]
    split
    · next hnone =>
      rw [htext, hslice] at hnone
      cases hnone
    · next before literal rest' hsome =>
      rw [htext, hslice] at hsome
      obtain ⟨rfl, hparts⟩ := Prod.mk.inj (Option.some.inj hsome)
      obtain ⟨rfl, rfl⟩ := Prod.mk.inj hparts
      have hkept := names_intern hnames value ('[' :: (name ++ [']']))
      rw [← byteLength_append]
      exact ih _ (by simp [← hlen]; omega) _ _ rest hkept
        (h.replace hskipped (hkept _ (Context.mem_literals_intern_self ctx value _))) rfl

/-! ### The passes over the literals -/

/-- The text of a separated source without its string literals. -/
theorem Separated.cleared {source : Text} (h : Separated source) (unquoted : Text) :
    Cleared (Text.withoutBlanks (outside source))
        (Text.withoutBlanks (Context.takeStrings source (Context.start source)).1)
        { (Context.takeStrings source (Context.start source)).2 with unquoted } ∧
      Piece.hexApart Piece.closes []
        (pieces (Text.withoutBlanks (Context.takeStrings source (Context.start source)).1)) = true := by
  have hnames : ∀ name ∈ (Context.takeStrings source (Context.start source)).2.literals.map Prod.snd,
      ∃ n, name = Context.generatedName n :=
    Context.takeStrings_preserves
      (P := fun ctx => ∀ name ∈ ctx.literals.map Prod.snd, ∃ n, name = Context.generatedName n)
      (fun ctx value text h => names_intern h value text) source (by simp)
  have hchars : ∀ name ∈ (Context.takeStrings source (Context.start source)).2.literals.map Prod.snd,
      ∀ c ∈ name, isWordChar c = true := by
    intro name hname c hc
    obtain ⟨n, rfl⟩ := hnames name hname
    exact Context.Sorted.isWordChar_of_mem_generatedName hc
  have hfills := (Context.fills_takeStrings source (Context.start source)).withoutBlanks hchars
  obtain ⟨hlaid, halike, -⟩ := hfills.laid hnames h.laid
  have hkept (p : Text → Bool) (hp : ∀ name ∈ (Context.takeStrings source
      (Context.start source)).2.literals.map Prod.snd, p name = false) :
      (Text.words (Text.withoutBlanks (Context.takeStrings source (Context.start source)).1)).filter
        p = (Text.words (Text.withoutBlanks (outside source))).filter p := by
    refine hfills.filter_words (quotesApart_of_laid h.laid) (fun name hname => ?_) hp
    obtain ⟨n, rfl⟩ := hnames name hname
    exact generatedName_word n
  refine ⟨⟨hlaid, fun w hw => ?_, fun p hp => ?_, hnames⟩, Piece.hexApart_congr .nil halike ▸ h.hex⟩
  · by_contra hnot
    rw [not_or] at hnot
    have hmem : w ∈ (Text.words (Text.withoutBlanks (outside source))).filter fun w => decide (w ∉
        (Context.takeStrings source (Context.start source)).2.literals.map Prod.snd) := by
      rw [← hkept _ fun name hname => decide_eq_false (not_not_intro hname)]
      exact List.mem_filter.mpr ⟨hw, decide_eq_true hnot.2⟩
    exact hnot.1 (List.mem_of_mem_filter hmem)
  · rw [hkept p hp]

/-- A number that is found gives way to its name. -/
theorem Cleared.number {out before literal rest : Text} {offset : Nat} {value : Value} {ctx : Context}
    (h : Cleared out (before ++ literal ++ rest) ctx)
    (hhex : Piece.hexApart Piece.endsMarked [] (pieces (before ++ literal ++ rest)) = true)
    (hfound : Extractor.scanNumber (before ++ literal ++ rest) offset =
      .found (byteLength before) (byteLength before + byteLength literal) value) :
    Cleared out (before ++ (ctx.intern value literal).1 ++ rest) (ctx.intern value literal).2 ∧
      Piece.hexApart Piece.endsMarked []
        (pieces (before ++ (ctx.intern value literal).1 ++ rest)) = true := by
  obtain ⟨htake, hisolated⟩ := Extractor.of_scanNumber_append hfound
  have hpieces : pieces (before ++ literal ++ rest) =
      pieces before ++ (pieces literal ++ pieces rest) := by
    rw [List.append_assoc, pieces_append (.inl hisolated.left), pieces_append (.inr hisolated.right)]
  have hgap := h.laid.gap_of_numeral (Extractor.numeral_of_takeNumber? htake).2
    (Extractor.hasValue_of_scanNumber hfound) hisolated hpieces hhex
  refine ⟨h.replace hpieces hgap value, ?_⟩
  obtain ⟨n, hn⟩ := names_intern h.names value _ _
    (Context.mem_literals_intern_self ctx value literal)
  obtain ⟨hne, hchars⟩ := generatedName_word n
  rw [hn, pieces_isolated hne hchars hgap.isolatedBy]
  refine Piece.hexApart_replace (isHexWord_generatedName n) (fun q behind hq => ?_) (hpieces ▸ hhex)
  cases q with
  | nil => cases hq
  | cons a q => cases a <;> exact hq

/-- A constant in brackets that is found gives way to its name. -/
theorem Cleared.symbol {style : Precedence} {out before literal rest : Text} {offset : Nat}
    {value : Value} {ctx : Context} (h : Cleared out (before ++ literal ++ rest) ctx)
    (hhex : Piece.hexApart Piece.closes [] (pieces (before ++ literal ++ rest)) = true)
    (hfound : Extractor.scanSymbol { precedence := style } (before ++ literal ++ rest) offset =
      .found (byteLength before) (byteLength before + byteLength literal) value) :
    Cleared out (before ++ (ctx.intern value literal).1 ++ rest) (ctx.intern value literal).2 ∧
      Piece.hexApart Piece.closes []
        (pieces (before ++ (ctx.intern value literal).1 ++ rest)) = true := by
  obtain ⟨inner, rfl, -⟩ := Extractor.of_scanSymbol_append hfound
  have hopen : isIdentifierChar '[' = false := by decide
  have hclose : isIdentifierChar ']' = false := by decide
  have hlaid := h.laid
  rw [List.append_assoc, List.cons_append, List.append_assoc] at hlaid
  obtain ⟨-, -, -, hgap⟩ := hlaid.bracketed hopen hclose rfl rfl fun _ => by decide
  have hgap : Gap before rest := hgap
  have hliteral : pieces ('[' :: (inner ++ [']'])) = .mark '[' :: (pieces inner ++ [.mark ']']) := by
    rw [pieces_cons hopen, pieces_append_cons hclose]
    rfl
  have hpieces : pieces (before ++ '[' :: (inner ++ [']']) ++ rest) =
      pieces before ++ (pieces ('[' :: (inner ++ [']'])) ++ pieces rest) := by
    simp only [hliteral, List.append_assoc, List.cons_append, pieces_append_cons hopen,
      pieces_append_cons hclose, List.nil_append]
  refine ⟨h.replace hpieces hgap value, ?_⟩
  obtain ⟨n, hn⟩ := names_intern h.names value _ _
    (Context.mem_literals_intern_self ctx value ('[' :: (inner ++ [']'])))
  obtain ⟨hne, hchars⟩ := generatedName_word n
  rw [hn, pieces_isolated hne hchars hgap.isolatedBy]
  refine Piece.hexApart_replace (isHexWord_generatedName n) (fun q behind hq => ?_) (hpieces ▸ hhex)
  rw [hliteral, List.reverse_cons, List.reverse_append, List.reverse_singleton, List.append_assoc,
    List.append_assoc]
  exact Piece.closes_bracket hq

/-- The literals of a separated source are taken out of it. -/
theorem cleared_extractLiterals (style : Precedence) {source : Text} (h : Separated source)
    (hclosed : '"' ∉ tail source) : Cleared (Text.withoutBlanks (outside source))
      ((Context.start source).extractLiterals { precedence := style } Registry.standard).1
      ((Context.start source).extractLiterals { precedence := style } Registry.standard).2 := by
  rw [Context.extractLiterals_common]
  have hstart : (Context.start source).KnowsOnly fun _ => True :=
    ⟨fun _ _ => trivial, fun _ _ => trivial, fun _ _ => trivial, rfl⟩
  obtain ⟨hunquoted, -, hnames⟩ := not_mem_takeStrings (fun _ => trivial) (fun _ _ => trivial) hclosed
    hstart (by simp)
  obtain ⟨hcleared, hhex⟩ := h.cleared (Context.takeStrings source (Context.start source)).1
  generalize Context.takeStrings source (Context.start source) = taken at *
  have hsymbols := @Context.pass_induct
    (fun text ctx => (Cleared (Text.withoutBlanks (outside source)) text ctx ∧
      Piece.hexApart Piece.closes [] (pieces text) = true) ∧ '"' ∉ text)
    (fun _ => Extractor.scanSymbol { precedence := style }) _
    (fun _ _ _ _ _ value _ hfound h => ⟨h.1.1.symbol h.1.2 hfound,
      not_mem_intern isIdentifierChar_quote h.1.1.names value h.2⟩) 0 (Text.withoutBlanks taken.1) 0
    { taken.2 with unquoted := taken.1 }
    ⟨⟨hcleared, hhex⟩, fun hmem => hunquoted (List.mem_of_mem_filter hmem)⟩
  have hclear := @unbracketed_scanSymbol style 0 [] (Text.withoutBlanks taken.1)
    { taken.2 with unquoted := taken.1 } hnames fun _ _ _ _ hlt => absurd hlt (Nat.not_lt_zero _)
  dsimp only [List.nil_append, byteLength_nil] at hclear ⊢
  generalize Context.pass (fun _ => Extractor.scanSymbol { precedence := style }) 0
    (Text.withoutBlanks taken.1) 0 { taken.2 with unquoted := taken.1 } = symbols at hsymbols hclear ⊢
  obtain ⟨⟨hcleared, hhex⟩, hquote⟩ := hsymbols
  have hmarked : Piece.hexApart Piece.endsMarked [] (pieces symbols.1) = true := by
    refine Piece.hexApart_mono (fun u v huv hends => ?_) hhex
    rw [List.append_nil] at hends ⊢
    refine Piece.closes_of_endsMarked (fun hmem => hquote ?_) (fun u x v hparts => ?_) huv hends
    · rw [← textAll_pieces symbols.1]
      exact List.mem_flatMap.mpr ⟨_, hmem, List.mem_singleton_self _⟩
    · refine hclear (Piece.textAll u) x (Piece.textAll v) ?_
      rw [← textAll_pieces symbols.1, hparts]
      simp [Piece.textAll, Piece.text]
  exact (Context.pass_induct (P := fun text ctx =>
      Cleared (Text.withoutBlanks (outside source)) text ctx ∧
        Piece.hexApart Piece.endsMarked [] (pieces text) = true)
    (fun _ _ _ _ _ _ _ hfound h => h.1.number h.2 hfound) 0 symbols.1 0 ⟨hcleared, hmarked⟩).1

end Source

end Formula
