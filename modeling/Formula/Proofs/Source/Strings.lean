import Formula.Plugin.Extractors
import Formula.Compile.Literals
import Formula.Proofs.Text.Nesting
import Formula.Proofs.Text.Words

/-!
# The source outside its string literals

The string literals of a text follow one another from left to right. What is left of a text when
each of them shrinks to a quotation mark is the text outside its literals: there the names of
parameters are looked for. The pass that takes the strings out of a source puts a name where the
quotation mark stands, and leaves everything else as it is.

## Main definitions

* `Source.firstString?`: the first string literal of a text.
* `Source.outside`: a text outside its string literals.
* `Context.takeStrings`: a text with names for its string literals.

## Main results

* `Context.pass_scanString`: the pass over the strings.
* `Source.Fills`, `Context.fills_takeStrings`: the names stand where the quotation marks do.
-/

namespace Formula

/-- A string literal in a text, with what precedes it, its content and what follows it. -/
structure StringLiteral where
  before : Text
  literal : Text
  content : Text
  rest : Text

theorem Extractor.exists_of_readQuoted {quote escape : Text} {skip : Option Nat}
    {text content rest : Text} (h : readQuoted quote escape skip text = some (content, rest)) :
    ∃ consumed, text = consumed ++ rest := by
  induction text generalizing skip content with
  | nil => simp [readQuoted] at h
  | cons c text ih =>
    have hmap {skip : Option Nat} {content : Text}
        (h : (readQuoted quote escape skip text).map (fun read => (c :: read.1, read.2)) =
          some (content, rest)) : ∃ consumed, c :: text = consumed ++ rest := by
      obtain ⟨⟨content', rest'⟩, hread, heq⟩ := Option.map_eq_some_iff.mp h
      obtain ⟨-, rfl⟩ := Prod.mk.inj heq
      obtain ⟨consumed, rfl⟩ := ih hread
      exact ⟨c :: consumed, rfl⟩
    have hnext {skip : Option Nat} (h : readQuoted quote escape skip text = some (content, rest)) :
        ∃ consumed, c :: text = consumed ++ rest := by
      obtain ⟨consumed, rfl⟩ := ih h
      exact ⟨c :: consumed, rfl⟩
    cases skip with
    | some k =>
      cases k with
      | zero =>
        rw [readQuoted] at h
        exact hmap h
      | succ k =>
        rw [readQuoted] at h
        exact hnext h
    | none =>
      rw [readQuoted] at h
      split at h
      · exact hnext h
      · split at h
        · next hafter =>
          obtain ⟨-, rfl⟩ := Prod.mk.inj (Option.some.inj h)
          exact ⟨quote, Text.after?_eq_some_iff.mp hafter⟩
        · exact hmap h

namespace Source

/-- The first string literal of a text. One that is not closed is none. -/
def firstString? (text : Text) : Option StringLiteral :=
  (Text.cut? ['"'] text).bind fun cut =>
    (Extractor.readQuoted ['"'] ['\\'] none cut.2).map fun read =>
      { before := cut.1
        literal := '"' :: cut.2.take (cut.2.length - read.2.length)
        content := read.1
        rest := read.2 }

theorem eq_append_of_firstString? {text : Text} {s : StringLiteral}
    (h : firstString? text = some s) : text = s.before ++ s.literal ++ s.rest := by
  obtain ⟨cut, hcut, h⟩ := Option.bind_eq_some_iff.mp h
  obtain ⟨read, hread, rfl⟩ := Option.map_eq_some_iff.mp h
  obtain ⟨consumed, hconsumed⟩ := Extractor.exists_of_readQuoted hread
  rw [Text.eq_append_of_cut? hcut, hconsumed]
  simp

theorem exists_cons_of_firstString? {text : Text} {s : StringLiteral}
    (h : firstString? text = some s) : ∃ tail, s.literal = '"' :: tail := by
  obtain ⟨cut, -, h⟩ := Option.bind_eq_some_iff.mp h
  obtain ⟨read, -, rfl⟩ := Option.map_eq_some_iff.mp h
  exact ⟨_, rfl⟩

theorem length_of_firstString? {text : Text} {s : StringLiteral}
    (h : firstString? text = some s) : s.rest.length < text.length := by
  obtain ⟨tail, htail⟩ := exists_cons_of_firstString? h
  have := congrArg List.length (eq_append_of_firstString? h)
  simp only [htail, List.length_append, List.length_cons] at this
  omega

/-- The text outside its string literals: a quotation mark stands for each of them. -/
def outside (text : Text) : Text :=
  match h : firstString? text with
  | none => text
  | some s =>
    have := length_of_firstString? h
    s.before ++ '"' :: outside s.rest
termination_by text.length

theorem outside_of_none {text : Text} (h : firstString? text = none) : outside text = text := by
  rw [outside]
  split
  · rfl
  · next heq => rw [h] at heq; cases heq

theorem outside_of_some {text : Text} {s : StringLiteral} (h : firstString? text = some s) :
    outside text = s.before ++ '"' :: outside s.rest := by
  rw [outside]
  split
  · next heq => rw [h] at heq; cases heq
  · next heq =>
    obtain rfl := Option.some.inj (h.symm.trans heq)
    rfl

end Source

namespace Context

/-- A text with names for its string literals. -/
def takeStrings (text : Text) (ctx : Context) : Text × Context :=
  match h : Source.firstString? text with
  | none => (text, ctx)
  | some s =>
    have := Source.length_of_firstString? h
    let named := ctx.intern (.string (String.ofList s.content)) s.literal
    let taken := takeStrings s.rest named.2
    (s.before ++ named.1 ++ taken.1, taken.2)
termination_by text.length

theorem takeStrings_of_none {text : Text} (h : Source.firstString? text = none) (ctx : Context) :
    takeStrings text ctx = (text, ctx) := by
  rw [takeStrings]
  split
  · rfl
  · next heq => rw [h] at heq; cases heq

theorem takeStrings_of_some {text : Text} {s : StringLiteral}
    (h : Source.firstString? text = some s) (ctx : Context) :
    takeStrings text ctx =
      (s.before ++ (ctx.intern (.string (String.ofList s.content)) s.literal).1 ++
          (takeStrings s.rest (ctx.intern (.string (String.ofList s.content)) s.literal).2).1,
        (takeStrings s.rest (ctx.intern (.string (String.ofList s.content)) s.literal).2).2) := by
  rw [takeStrings]
  split
  · next heq => rw [h] at heq; cases heq
  · next heq =>
    obtain rfl := Option.some.inj (h.symm.trans heq)
    rfl

end Context

/-! ### The pass over the strings -/

theorem Text.splitAtByte?_append (before rest : Text) :
    splitAtByte? (byteLength before) (before ++ rest) = some (before, rest) := by
  induction before with
  | nil => cases rest <;> rfl
  | cons c before ih =>
    obtain ⟨n, hn⟩ : ∃ n, byteLength (c :: before) = n + 1 :=
      Nat.exists_eq_succ_of_ne_zero (by have := c.utf8Size_pos; simp; omega)
    have hsize : n + 1 - c.utf8Size = byteLength before := by
      rw [← hn, byteLength_cons, Nat.add_sub_cancel_left]
    rw [hn, List.cons_append, splitAtByte?, if_pos (by rw [← hn, byteLength_cons]; omega), hsize, ih]
    rfl

theorem Text.slice?_append (before middle rest : Text) :
    slice? (byteLength before) (byteLength before + byteLength middle) (before ++ middle ++ rest) =
      some (before, middle, rest) := by
  have hmiddle : byteLength before + byteLength middle - byteLength before = byteLength middle :=
    Nat.add_sub_cancel_left ..
  rw [slice?, List.append_assoc, splitAtByte?_append]
  simp [hmiddle, splitAtByte?_append]

theorem Extractor.scanString_append (style : Precedence) (done rest : Text) :
    scanString { precedence := style } (done ++ rest) (Text.byteLength done) =
      match Source.firstString? rest with
      | none => .exhausted
      | some s => .found (Text.byteLength (done ++ s.before))
          (Text.byteLength (done ++ s.before) + Text.byteLength s.literal)
          (.string (String.ofList s.content)) := by
  have hquote : ({ precedence := style } : Definition).stringIndicator.toList = ['"'] :=
    (by decide : "\"".toList = ['"'])
  have hescape : ({ precedence := style } : Definition).escapeCharacter.toList = ['\\'] :=
    (by decide : "\\".toList = ['\\'])
  simp only [scanString, Text.splitAtByte?_append, Option.bind_some, hquote, hescape]
  cases hfirst : Source.firstString? rest with
  | none =>
    cases hcut : Text.cut? ['"'] rest with
    | none => rfl
    | some cut =>
      have hread : readQuoted ['"'] ['\\'] none cut.2 = none := by
        rw [Source.firstString?, hcut, Option.bind_some, Option.map_eq_none_iff] at hfirst
        exact hfirst
      simp only [hread]
  | some s =>
    have heq := Source.eq_append_of_firstString? hfirst
    obtain ⟨cut, hcut, h⟩ := Option.bind_eq_some_iff.mp hfirst
    obtain ⟨read, hread, rfl⟩ := Option.map_eq_some_iff.mp h
    simp only [hcut, hread]
    have hlast : Text.byteLength (done ++ rest) - Text.byteLength read.2 =
        Text.byteLength (done ++ cut.1) +
          Text.byteLength ('"' :: cut.2.take (cut.2.length - read.2.length)) := by
      rw [heq]
      simp only [Text.byteLength_append]
      omega
    rw [hlast, Text.byteLength_append]

namespace Context

theorem pass_scanString (style : Precedence) (count : Nat) (done rest : Text) (ctx : Context) :
    pass (fun _ => Extractor.scanString { precedence := style }) count (done ++ rest)
        (Text.byteLength done) ctx =
      (done ++ (takeStrings rest ctx).1, (takeStrings rest ctx).2) := by
  induction hlen : rest.length using Nat.strongRecOn generalizing count done rest ctx with
  | _ n ih =>
    rw [pass, dif_pos (by simp)]
    simp only [Extractor.scanString_append]
    cases hfirst : Source.firstString? rest with
    | none => simp only [takeStrings_of_none hfirst]
    | some s =>
      obtain ⟨tail, htail⟩ := Source.exists_cons_of_firstString? hfirst
      have hlength := Source.length_of_firstString? hfirst
      obtain rfl := Source.eq_append_of_firstString? hfirst
      have hslice : Text.slice? (Text.byteLength (done ++ s.before))
          (Text.byteLength (done ++ s.before) + Text.byteLength s.literal)
          (done ++ (s.before ++ s.literal ++ s.rest)) =
          some (done ++ s.before, s.literal, s.rest) := by
        rw [← Text.slice?_append]
        simp
      have hpos : 0 < Text.byteLength s.literal := by
        rw [htail, Text.byteLength_cons]
        exact Nat.add_pos_left (Char.utf8Size_pos _) _
      simp only
      rw [dif_pos (by simp only [Text.byteLength_append]; omega)]
      split
      · next hnone => rw [hslice] at hnone; cases hnone
      · next hsome =>
        obtain ⟨rfl, hparts⟩ := Prod.mk.inj (Option.some.inj (hslice.symm.trans hsome))
        obtain ⟨rfl, rfl⟩ := Prod.mk.inj hparts
        have hpass := ih s.rest.length (hlen ▸ hlength) (count + 1)
          (done ++ s.before ++ (ctx.intern (.string (String.ofList s.content)) s.literal).1) s.rest
          (ctx.intern (.string (String.ofList s.content)) s.literal).2 rfl
        rw [Text.byteLength_append] at hpass
        rw [hpass, takeStrings_of_some hfirst]
        simp

theorem passes_cons {d : Definition} {e : Extractor} (hcancels : e.cancels = false)
    (rest : List Extractor) (stripped : Bool) (text : Text) (ctx : Context) :
    passes d (e :: rest) stripped text ctx =
      if !stripped && 0 < e.level.rank then
        passes d rest true
          (pass (e.scan d) 0 (Text.withoutBlanks text) 0 { ctx with unquoted := text }).1
          (pass (e.scan d) 0 (Text.withoutBlanks text) 0 { ctx with unquoted := text }).2
      else passes d rest stripped (pass (e.scan d) 0 text 0 ctx).1 (pass (e.scan d) 0 text 0 ctx).2 := by
  have hkept (ctx : Context) : { ctx with cancelled := ctx.cancelled || e.cancels } = ctx := by
    rw [hcancels, Bool.or_false]
  rw [passes]
  dsimp only
  rw [hkept]
  split
  · next hstrips =>
    rw [hstrips, Bool.or_true]
    rfl
  · next hstrips => rw [Bool.eq_false_of_not_eq_true hstrips, Bool.or_false]

/-- The literals of a source for the common tokens: strings first, then, without white space,
constants between brackets and numbers. -/
theorem extractLiterals_common (style : Precedence) (source : Text) :
    (start source).extractLiterals { precedence := style } Registry.standard =
      let taken := takeStrings source (start source)
      let symbols := pass (fun _ => Extractor.scanSymbol { precedence := style }) 0
        (Text.withoutBlanks taken.1) 0 { taken.2 with unquoted := taken.1 }
      pass (fun _ => Extractor.scanNumber) 0 symbols.1 0 symbols.2 := by
  have hstrings : pass (Extractor.strings.scan { precedence := style }) 0 source 0 (start source) =
      takeStrings source (start source) := pass_scanString style 0 [] source (start source)
  rw [extractLiterals, Registry.standard, show (start source).source = source from rfl,
    passes_cons rfl, if_neg (by decide), passes_cons rfl, if_pos (by decide), passes_cons rfl,
    if_neg (by decide), passes, if_pos rfl, hstrings]
  rfl

/-- Only constants in brackets and numbers are taken out of a source without quotes. -/
theorem extractLiterals_unquoted (style : Precedence) {source : Text} (hquote : '"' ∉ source) :
    (start source).extractLiterals { precedence := style } Registry.standard =
      let symbols := pass (fun _ => Extractor.scanSymbol { precedence := style }) 0
        (Text.withoutBlanks source) 0 (start source)
      pass (fun _ => Extractor.scanNumber) 0 symbols.1 0 symbols.2 := by
  have hstring : Source.firstString? source = none := by
    rw [Source.firstString?, Text.cut?_eq_none (List.mem_singleton_self _) hquote, Option.bind_none]
  rw [extractLiterals_common, takeStrings_of_none hstring]
  rfl

end Context

/-! ### Names in place of quotation marks -/

namespace Source

/-- What occurs in a text outside its string literals and holds no quotation mark occurs in the
text. -/
theorem contains_of_contains_outside {token text : Text} (htoken : '"' ∉ token)
    (h : Text.contains token (outside text) = true) : Text.contains token text = true := by
  induction hlen : text.length using Nat.strongRecOn generalizing text with
  | _ n ih =>
    cases hfirst : firstString? text with
    | none => rwa [outside_of_none hfirst] at h
    | some s =>
      rw [outside_of_some hfirst, Text.contains_append_cons htoken, Bool.or_eq_true] at h
      have htext := eq_append_of_firstString? hfirst
      rcases h with h | h
      · obtain ⟨before, rest, hbefore⟩ := Text.contains_iff.mp h
        exact Text.contains_iff.mpr ⟨before, rest ++ s.literal ++ s.rest, by
          rw [htext, hbefore]
          simp⟩
      · have hrest := ih s.rest.length (hlen ▸ length_of_firstString? hfirst) h rfl
        obtain ⟨before, rest, hrest⟩ := Text.contains_iff.mp hrest
        exact Text.contains_iff.mpr ⟨s.before ++ s.literal ++ before, rest, by
          rw [htext, hrest]
          simp⟩

/-- The second text has names where the first has quotation marks, up to some quotation mark from
which on they agree. -/
inductive Fills (isName : Text → Prop) : Text → Text → Prop
  | refl (text : Text) : Fills isName text text
  | name (before : Text) {name out filled : Text} (hname : isName name)
      (h : Fills isName out filled) : Fills isName (before ++ '"' :: out) (before ++ name ++ filled)

/-- No quotation mark stands next to a character of names or to another one. -/
def QuotesApart (out : Text) : Prop :=
  ∀ u v, out = u ++ '"' :: v →
    (∀ c ∈ u.getLast?, Text.isIdentifierChar c = false ∧ c ≠ '"') ∧
      ∀ c ∈ v.head?, Text.isIdentifierChar c = false ∧ c ≠ '"'

theorem quotesApart_iff {out : Text} :
    QuotesApart out ↔ ((Text.cuts ['"'] out).all fun p =>
      (p.1.getLast?.all fun c => !Text.isIdentifierChar c && c != '"') &&
        p.2.head?.all fun c => !Text.isIdentifierChar c && c != '"') = true := by
  simp only [List.all_eq_true, Bool.and_eq_true, Option.all_eq_true, Bool.not_eq_true', bne_iff_ne]
  constructor
  · exact fun h p hp => h p.1 p.2 (by simpa using Text.eq_append_of_mem_cuts hp)
  · rintro h u v rfl
    refine h (u, v) ?_
    rw [Text.cuts_append, Text.cuts_cons]
    simp

instance (out : Text) : Decidable (QuotesApart out) :=
  decidable_of_iff _ quotesApart_iff.symm

theorem QuotesApart.of_append {before out : Text} (h : QuotesApart (before ++ '"' :: out)) :
    QuotesApart out := by
  intro u v huv
  obtain ⟨hleft, hright⟩ := h (before ++ '"' :: u) v (by simp [huv])
  refine ⟨fun c hc => hleft c ?_, hright⟩
  rw [List.getLast?_append, List.getLast?_cons, Option.mem_def.mp hc]
  simp

/-- What is filled in place of the first character shows only if that is a quotation mark. -/
theorem Fills.head? {isName : Text → Prop} {out filled : Text} (h : Fills isName out filled)
    (hout : ∀ c ∈ out.head?, c ≠ '"') : filled.head? = out.head? := by
  cases h with
  | refl => rfl
  | @name before name out filled _ _ =>
    cases before with
    | nil => exact absurd rfl (hout '"' rfl)
    | cons c before => rfl

theorem isIdentifierChar_quote : Text.isIdentifierChar '"' = false := by decide

/-- Names that stand apart add themselves to the words, and nothing else. -/
theorem Fills.filter_words {isName : Text → Prop} {out filled : Text} (h : Fills isName out filled)
    (hapart : QuotesApart out)
    (hnames : ∀ name, isName name → name ≠ [] ∧ ∀ c ∈ name, Text.isIdentifierChar c = true)
    {p : Text → Bool} (hp : ∀ name, isName name → p name = false) :
    (Text.words filled).filter p = (Text.words out).filter p := by
  induction h with
  | refl => rfl
  | @name before name out filled hname h ih =>
    obtain ⟨hleft, hright⟩ := hapart before out rfl
    have hhead := h.head? fun c hc => (hright c hc).2
    have hisolated : Text.IsolatedBy before filled :=
      ⟨fun c hc => (hleft c hc).1, fun c hc => (hright c (hhead ▸ hc)).1⟩
    obtain ⟨hne, hchars⟩ := hnames name hname
    rw [Text.words_isolated hne hchars hisolated, Text.words_append_cons isIdentifierChar_quote,
      List.filter_append, List.filter_append, List.filter_cons_of_neg (by simp [hp name hname]),
      ih hapart.of_append]

theorem Fills.mono {isName isName' : Text → Prop} {out filled : Text} (h : Fills isName out filled)
    (hnames : ∀ name, isName name → isName' name) : Fills isName' out filled := by
  induction h with
  | refl text => exact .refl text
  | name before hname _ ih => exact .name before (hnames _ hname) ih

end Source

namespace Context

/-- Interning keeps `P`, so taking the strings out of a text does. -/
theorem takeStrings_preserves {P : Context → Prop}
    (hintern : ∀ (ctx : Context) value text, P ctx → P (ctx.intern value text).2) (text : Text)
    {ctx : Context} (h : P ctx) : P (takeStrings text ctx).2 := by
  induction hlen : text.length using Nat.strongRecOn generalizing text ctx with
  | _ n ih =>
    cases hfirst : Source.firstString? text with
    | none => rwa [takeStrings_of_none hfirst]
    | some s =>
      rw [takeStrings_of_some hfirst]
      exact ih s.rest.length (hlen ▸ Source.length_of_firstString? hfirst) s.rest
        (hintern ctx _ _ h) rfl

theorem mem_literals_intern_self (ctx : Context) (value : Value) (text : Text) :
    (ctx.intern value text).1 ∈ (ctx.intern value text).2.literals.map Prod.snd := by
  rw [intern]
  split
  · next name hname =>
    obtain ⟨l₁, l₂, heq, -⟩ := List.lookup_eq_some_iff.mp hname
    rw [heq]
    simp
  · exact List.mem_cons_self ..

theorem mem_literals_intern {ctx : Context} {name : Text} (h : name ∈ ctx.literals.map Prod.snd)
    (value : Value) (text : Text) : name ∈ (ctx.intern value text).2.literals.map Prod.snd := by
  rw [intern]
  split
  · exact h
  · exact List.mem_cons_of_mem _ h

/-- The names of literals stand where the quotation marks do. -/
theorem fills_takeStrings (text : Text) (ctx : Context) :
    Source.Fills (· ∈ (takeStrings text ctx).2.literals.map Prod.snd) (Source.outside text)
      (takeStrings text ctx).1 := by
  induction hlen : text.length using Nat.strongRecOn generalizing text ctx with
  | _ n ih =>
    cases hfirst : Source.firstString? text with
    | none =>
      rw [takeStrings_of_none hfirst, Source.outside_of_none hfirst]
      exact .refl text
    | some s =>
      rw [takeStrings_of_some hfirst, Source.outside_of_some hfirst]
      refine .name s.before ?_ (ih s.rest.length (hlen ▸ Source.length_of_firstString? hfirst) s.rest
        (ctx.intern (.string (String.ofList s.content)) s.literal).2 rfl)
      have hkept (name : Text) (ctx : Context) (h : name ∈ ctx.literals.map Prod.snd) :
          name ∈ (takeStrings s.rest ctx).2.literals.map Prod.snd :=
        takeStrings_preserves (P := fun ctx => name ∈ ctx.literals.map Prod.snd)
          (fun _ value text h => mem_literals_intern h value text) s.rest h
      exact hkept _ _ (mem_literals_intern_self ctx _ _)

/-- What every replacement of a literal by its name keeps is kept by a pass. -/
theorem pass_induct {P : Text → Context → Prop} {scan : Nat → Text → Nat → Extraction}
    [Counted scan] (hreplace : ∀ count offset before literal rest value (ctx : Context),
      scan count (before ++ literal ++ rest) offset = .found (Text.byteLength before)
        (Text.byteLength before + Text.byteLength literal) value →
      P (before ++ literal ++ rest) ctx →
      P (before ++ (ctx.intern value literal).1 ++ rest) (ctx.intern value literal).2)
    (count : Nat) (text : Text) (offset : Nat) {ctx : Context} (h : P text ctx) :
    P (pass scan count text offset ctx).1 (pass scan count text offset ctx).2 := by
  induction hmeasure : Text.byteLength text + 1 - offset using Nat.strongRecOn
    generalizing count text offset ctx with
  | _ measure ih =>
    by_cases hle : offset ≤ Text.byteLength text
    · cases hscan : scan count text offset with
      | exhausted =>
        rw [pass, dif_pos hle, hscan]
        exact h
      | invalid place =>
        have := stepAt_pos text (max place offset)
        rw [pass_of_invalid hle hscan]
        exact ih _ (by omega) _ _ _ h rfl
      | found first last value =>
        rw [pass, dif_pos hle, hscan]
        dsimp only
        split
        · split
          · exact h
          · next before literal rest hslice =>
            obtain ⟨rfl, hbefore, hliteral, hle⟩ := Text.eq_append_of_slice? hslice
            obtain rfl : last = first + Text.byteLength literal := by omega
            subst hbefore
            refine ih _ ?_ _ _ _ (hreplace _ _ _ _ _ _ _ hscan h) rfl
            simp only [Text.byteLength_append] at *
            omega
        · exact h
    · rw [pass, dif_neg hle]
      exact h

theorem pass_preserves {P : Context → Prop}
    (hintern : ∀ (ctx : Context) value text, P ctx → P (ctx.intern value text).2)
    (scan : Nat → Text → Nat → Extraction) [Counted scan] (count : Nat) (text : Text) (offset : Nat)
    {ctx : Context} (h : P ctx) : P (pass scan count text offset ctx).2 :=
  pass_induct (P := fun _ ctx => P ctx) (fun _ _ _ literal _ value ctx _ => hintern ctx value literal)
    count text offset h

end Context

end Formula
