import Formula.Proofs.Source.Unfolding

/-!
# Operator marks in a source

Before a text is split, operators that contain shorter ones give way to marks: `!=` is written
`@op0@` from then on. The text of a symbol that is split is spelled with the characters of the
language and with such marks, for what stands between its operators is an operand. Where the marks
came from does not show. A source that holds `@op0@` itself is split there like any other, and so is
one where only a part of a mark is given and the operator beside it brings the rest, as in `@op1!=`.

So a source may hold `@` after all, but not anywhere: the name of a mark has to stand beside it.

## Main definitions

* `Source.isLanguageChar`: the characters of the language.
* `Source.TouchesMarker`: where an `@` may stand.
* `Source.Spelled`: texts of these characters.
* `Source.Inert`: texts that no mark reaches across.

## Main results

* `Source.Spelled.of_append`: what stands around an inert text is spelled.
* `Source.spelled_of_operandsFrom`: a text is spelled if its operands have no other characters.
* `Source.Spelled.of_mark`: a text is spelled if it is with its operators marked.
-/

namespace Formula

open Text

/-! ### Prefixes and suffixes -/

theorem Text.prefix_append_cases {l a b : Text} (h : l <+: a ++ b) :
    l <+: a ∨ ∃ t, t ≠ [] ∧ l = a ++ t ∧ t <+: b := by
  rcases List.prefix_or_prefix_of_prefix h (List.prefix_append a b) with hl | ⟨t, rfl⟩
  · exact .inl hl
  · by_cases ht : t = []
    · exact .inl (by simp [ht])
    · exact .inr ⟨t, ht, rfl, (List.prefix_append_right_inj a).mp h⟩

theorem Text.suffix_append_cases {l a b : Text} (h : l <:+ a ++ b) :
    l <:+ b ∨ ∃ t, t ≠ [] ∧ l = t ++ b ∧ t <:+ a := by
  rcases List.suffix_or_suffix_of_suffix h (List.suffix_append a b) with hl | ⟨t, rfl⟩
  · exact .inl hl
  · by_cases ht : t = []
    · exact .inl (by simp [ht])
    · exact .inr ⟨t, ht, rfl, List.suffix_append_self_iff.mp h⟩

namespace Source

/-! ### Characters and marks -/

/-- The characters of the tokens of a definition. -/
def tokenChars (d : Definition) : Text :=
  (d.delimiters ++ d.operators).flatMap fun token => token.2.toList

/-- Whether a character belongs to the language: white space, a character of names, or one of a
token. -/
def isLanguageChar (d : Definition) (c : Char) : Bool :=
  isBlank c || isIdentifierChar c || decide (c ∈ tokenChars d)

/-- What stands between the two ends of a marker. -/
def markerNames : List Text :=
  [['o', 'p', '0'], ['o', 'p', '1'], ['o', 'p', '2'], ['o', 'p', '3'], ['o', 'p', '4']]

/-- What may follow the name of a marker: its end, or an operator that gives way to a marker. -/
def markerEnds : Text := ['@', '!', '<', '>']

/-- The name of a marker follows, with an end, or one stands before. -/
def TouchesMarker (before rest : Text) : Prop :=
  ∃ w ∈ markerNames, (∃ x ∈ markerEnds, w ++ [x] <+: rest) ∨ w <:+ before

/-- Every character of a text with given surroundings belongs to the language or is one end of a
marker. -/
def SpelledIn (u text v : Text) : Prop :=
  ∀ before c rest, text = before ++ c :: rest →
    isLanguageChar .default c = true ∨ c = '@' ∧ TouchesMarker (u ++ before) (rest ++ v)

/-- Every character of a text belongs to the language or is one end of a marker. -/
def Spelled (text : Text) : Prop :=
  SpelledIn [] text []

theorem spelledIn_of_forall {text : Text} (h : ∀ c ∈ text, isLanguageChar .default c = true)
    (u v : Text) : SpelledIn u text v :=
  fun before c rest htext => .inl (h c (by simp [htext]))

theorem TouchesMarker.mono {before rest : Text} (h : TouchesMarker before rest) (u v : Text) :
    TouchesMarker (u ++ before) (rest ++ v) := by
  obtain ⟨w, hw, ⟨x, hx, hrest⟩ | hbefore⟩ := h
  · exact ⟨w, hw, .inl ⟨x, hx, hrest.trans (List.prefix_append _ _)⟩⟩
  · exact ⟨w, hw, .inr (hbefore.trans (List.suffix_append _ _))⟩

theorem spelledIn_append {u a b v : Text} :
    SpelledIn u (a ++ b) v ↔ SpelledIn u a (b ++ v) ∧ SpelledIn (u ++ a) b v := by
  constructor
  · intro h
    constructor
    · rintro before c rest rfl
      simpa using h before c (rest ++ b) (by simp)
    · rintro before c rest rfl
      simpa using h (a ++ before) c rest (by simp)
  · rintro ⟨ha, hb⟩ before c rest htext
    rcases List.append_eq_append_iff.mp htext with ⟨w, rfl, rfl⟩ | ⟨w, rfl, hw⟩
    · simpa using hb w c rest rfl
    · cases w with
      | nil =>
        obtain rfl : c :: rest = b := by simpa using hw
        simpa using hb [] c rest rfl
      | cons d w =>
        obtain ⟨rfl, rfl⟩ := List.cons.inj hw
        simpa using ha before c w rfl

theorem Spelled.spelledIn {text : Text} (h : Spelled text) (u v : Text) : SpelledIn u text v :=
  fun before c rest htext => (h before c rest htext).imp_right fun h => ⟨h.1, by
    simpa using h.2.mono u v⟩

theorem Spelled.append {a b : Text} (ha : Spelled a) (hb : Spelled b) : Spelled (a ++ b) :=
  spelledIn_append.mpr ⟨Spelled.spelledIn ha [] (b ++ []), Spelled.spelledIn hb ([] ++ a) []⟩

theorem chars_of_mem_markerNames {w : Text} (hw : w ∈ markerNames) :
    w.head? = some 'o' ∧ ∀ c ∈ w, c ∈ ['o', 'p', '0', '1', '2', '3', '4'] := by
  have hall : (markerNames.all fun w => decide (w.head? = some 'o') &&
      w.all fun c => decide (c ∈ ['o', 'p', '0', '1', '2', '3', '4'])) = true := by decide
  have := List.all_eq_true.mp hall w hw
  rw [Bool.and_eq_true, decide_eq_true_eq, List.all_eq_true] at this
  exact ⟨this.1, fun c hc => of_decide_eq_true (this.2 c hc)⟩

/-- No marker goes over from one side of a text to the other. -/
structure Inert (text : Text) : Prop where
  ends : ∀ c ∈ text, c ∉ 'o' :: markerEnds
  holds : ∃ c ∈ text, c ∉ ['o', 'p', '0', '1', '2', '3', '4'] ++ markerEnds

namespace Inert

variable {a k b w : Text} (hk : Inert k) (hw : w ∈ markerNames)
include hk hw

/-- A name of a marker that starts before an inert text ends before it, with its end. -/
theorem prefix_of_append {x : Char} (hx : x ∈ markerEnds) (h : w ++ [x] <+: a ++ (k ++ b)) :
    w ++ [x] <+: a := by
  refine (Text.prefix_append_cases h).resolve_right ?_
  rintro ⟨t, hne, ht, hprefix⟩
  have hmem : x ∈ t := by
    have hlast := congrArg List.getLast? ht
    rw [List.getLast?_append, List.getLast?_append, List.getLast?_singleton] at hlast
    have hsome := List.getLast?_eq_some_getLast hne
    rw [hsome, Option.some_or] at hlast
    exact List.mem_of_getLast? (hsome.trans hlast.symm)
  -- what reaches into the inert text stays in it, or holds all of it
  rcases List.prefix_or_prefix_of_prefix hprefix (List.prefix_append k b) with hin | hall
  · exact hk.ends x (hin.subset hmem) (List.mem_cons_of_mem _ hx)
  · obtain ⟨c, hc, hnot⟩ := hk.holds
    have : c ∈ w ++ [x] := ht ▸ List.mem_append_right a (hall.subset hc)
    rcases List.mem_append.mp this with hcw | hcx
    · exact hnot (List.mem_append_left _ ((chars_of_mem_markerNames hw).2 c hcw))
    · exact hnot (List.mem_append_right _ (List.mem_singleton.mp hcx ▸ hx))

/-- A name of a marker that ends after an inert text starts after it. -/
theorem suffix_of_append (h : w <:+ a ++ k ++ b) : w <:+ b := by
  refine (Text.suffix_append_cases h).resolve_right ?_
  rintro ⟨t, hne, ht, hsuffix⟩
  rcases List.suffix_or_suffix_of_suffix hsuffix (List.suffix_append a k) with hin | hall
  · obtain ⟨c, t, rfl⟩ := List.exists_cons_of_ne_nil hne
    have hhead := (chars_of_mem_markerNames hw).1
    rw [ht] at hhead
    obtain rfl : c = 'o' := by simpa using hhead
    exact hk.ends 'o' (hin.subset (List.mem_cons_self ..)) (List.mem_cons_self ..)
  · obtain ⟨c, hc, hnot⟩ := hk.holds
    have : c ∈ w := ht ▸ List.mem_append_left b (hall.subset hc)
    exact hnot (List.mem_append_left _ ((chars_of_mem_markerNames hw).2 c this))

end Inert

/-- The two sides of an inert text are spelled by themselves. -/
theorem Spelled.of_append {a k b : Text} (h : Spelled (a ++ k ++ b)) (hk : Inert k) :
    Spelled a ∧ Spelled b := by
  rw [Spelled, spelledIn_append, List.append_nil, List.nil_append] at h
  obtain ⟨hakb, hb⟩ := h
  have ha := (spelledIn_append.mp hakb).1
  constructor
  · rintro before c rest rfl
    refine (ha before c rest rfl).imp_right fun h => ⟨h.1, ?_⟩
    obtain ⟨w, hw, ⟨x, hx, hrest⟩ | hbefore⟩ := h.2
    · exact ⟨w, hw, .inl ⟨x, hx, by simpa using hk.prefix_of_append hw hx hrest⟩⟩
    · exact ⟨w, hw, .inr hbefore⟩
  · rintro before c rest rfl
    refine (hb before c rest rfl).imp_right fun h => ⟨h.1, ?_⟩
    obtain ⟨w, hw, hrest | hbefore⟩ := h.2
    · exact ⟨w, hw, .inl hrest⟩
    · exact ⟨w, hw, .inr (hk.suffix_of_append hw hbefore)⟩

theorem mem_generatedName {n : Nat} {c : Char} (hc : c ∈ Context.generatedName n) :
    c ∈ ['i', 't', 'e', 'm'] ∨ c.isDigit = true := by
  rcases List.mem_append.mp hc with h | h
  · exact .inl h
  · rcases List.mem_append.mp h with h | h
    · rw [(List.mem_replicate.mp h).2]
      exact .inr rfl
    · exact .inr (Nat.isDigit_of_mem_toDigits (by decide) (by decide) h)

theorem inert_generatedName (n : Nat) : Inert (Context.generatedName n) := by
  have hends : (('o' :: markerEnds).all fun c => !c.isDigit && c ∉ ['i', 't', 'e', 'm']) = true := by
    decide
  refine ⟨fun c hc hend => ?_, 'i', by simp [Context.generatedName], by decide⟩
  have := List.all_eq_true.mp hends c hend
  simp only [Bool.and_eq_true, Bool.not_eq_true', decide_eq_true_eq] at this
  rcases mem_generatedName hc with h | h
  · exact this.2 h
  · rw [this.1] at h
    cases h

/-! ### Operators and their markers -/

theorem isLanguageChar_of_isIdentifierChar {c : Char} (h : isIdentifierChar c = true) :
    isLanguageChar .default c = true := by
  rw [isLanguageChar, h, Bool.or_true, Bool.true_or]

/-- A marker is spelled. -/
theorem spelled_marker {w : Text} (hw : w ∈ markerNames) : Spelled ('@' :: (w ++ ['@'])) := by
  have hchars : (['o', 'p', '0', '1', '2', '3', '4'].all isIdentifierChar) = true := by decide
  intro before c rest htext
  rw [List.nil_append, List.append_nil]
  cases before with
  | nil =>
    obtain ⟨rfl, rfl⟩ := List.cons.inj htext
    exact .inr ⟨rfl, w, hw, .inl ⟨'@', List.mem_cons_self .., List.prefix_refl _⟩⟩
  | cons d before =>
    obtain ⟨-, htext⟩ := List.cons.inj htext
    cases rest using List.reverseRecOn with
    | nil =>
      obtain ⟨rfl, hc⟩ := List.append_inj' htext rfl
      obtain rfl : '@' = c := by simpa using hc
      exact .inr ⟨rfl, w, hw, .inr (List.suffix_cons d w)⟩
    | append_singleton rest e =>
      have htext : w ++ ['@'] = (before ++ c :: rest) ++ [e] := by simpa using htext
      obtain ⟨rfl, -⟩ := List.append_inj' htext rfl
      exact .inl (isLanguageChar_of_isIdentifierChar
        (List.all_eq_true.mp hchars c ((chars_of_mem_markerNames hw).2 c (by simp))))

/-- The marked forms of the operators are spelled. -/
theorem spelled_of_mem_tokens {entry : Text × Text} (h : entry ∈ Markers.common.tokens) :
    Spelled entry.2 ∧ entry.2 ≠ [] := by
  have hall : (Markers.common.tokens.all fun entry => !entry.2.isEmpty &&
      ((markerNames.any fun w => entry.2 == '@' :: (w ++ ['@'])) ||
        entry.2.all (isLanguageChar .default))) = true := by decide
  have := List.all_eq_true.mp hall entry h
  rw [Bool.and_eq_true, Bool.or_eq_true, Bool.not_eq_true', List.isEmpty_eq_false_iff] at this
  refine ⟨?_, this.1⟩
  rcases this.2 with hmarker | hchars
  · obtain ⟨w, hw, heq⟩ := List.any_eq_true.mp hmarker
    rw [eq_of_beq heq]
    exact spelled_marker hw
  · exact spelledIn_of_forall (List.all_eq_true.mp hchars) _ _

theorem operandsFrom_skip (m : Markers) (before rest : Text) :
    m.operandsFrom before.length (before ++ rest) = m.operandsFrom 0 rest := by
  induction before with
  | nil => rfl
  | cons c before ih => exact ih

theorem operandsFrom_ne_nil (m : Markers) (skip : Nat) (text : Text) :
    m.operandsFrom skip text ≠ [] := by
  induction text generalizing skip with
  | nil => simp [Markers.operandsFrom]
  | cons c text ih =>
    cases skip with
    | succ skip => exact ih skip
    | zero =>
      rw [Markers.operandsFrom]
      split
      · simp
      · obtain ⟨x, xs, hsplit⟩ := List.exists_cons_of_ne_nil (ih 0)
        rw [hsplit]
        simp

/-- A text is spelled if its operands have no foreign characters. -/
theorem spelled_of_operandsFrom {text : Text}
    (h : ∀ x ∈ Markers.common.operandsFrom 0 text, ∀ c ∈ x, isLanguageChar .default c = true) :
    Spelled text := by
  induction hlen : text.length using Nat.strongRecOn generalizing text with
  | _ n ih =>
    cases text with
    | nil => exact spelledIn_of_forall (by simp) _ _
    | cons c text =>
      rw [Markers.operandsFrom] at h
      split at h
      · next marked hfind =>
        obtain ⟨hspelled, hne⟩ := spelled_of_mem_tokens (List.mem_of_find?_eq_some hfind)
        obtain ⟨rest, hrest⟩ := Option.isSome_iff_exists.mp
          (List.find?_some (p := fun entry : Text × Text => startsWith entry.2 (c :: text)) hfind)
        have htext := Text.after?_eq_some_iff.mp hrest
        obtain ⟨d, marked, rfl⟩ := List.exists_cons_of_ne_nil hne
        obtain ⟨rfl, rfl⟩ := List.cons.inj htext
        have hskip : Markers.common.operandsFrom ((c :: marked).length - 1) (marked ++ rest) =
            Markers.common.operandsFrom 0 rest := operandsFrom_skip Markers.common marked rest
        rw [List.append_eq, hskip] at h
        rw [htext]
        refine hspelled.append (ih rest.length ?_ (fun x hx => h x (List.mem_cons_of_mem _ hx)) rfl)
        rw [← hlen, htext, List.length_append, List.length_cons]
        omega
      · next hfind =>
        obtain ⟨x, xs, hsplit⟩ := List.exists_cons_of_ne_nil
          (operandsFrom_ne_nil Markers.common 0 text)
        rw [hsplit, List.modifyHead_cons] at h
        obtain ⟨hfirst, hrest⟩ := List.forall_mem_cons.mp h
        have hc := hfirst c (List.mem_cons_self ..)
        refine Spelled.append (a := [c]) (spelledIn_of_forall (by simpa using hc) _ _)
          (ih text.length (by rw [← hlen]; exact Nat.lt_succ_self _) ?_ rfl)
        rw [hsplit]
        exact List.forall_mem_cons.mpr
          ⟨fun d hd => hfirst d (List.mem_cons_of_mem _ hd), hrest⟩

/-- An operator that gives way to a marker. -/
structure GivesWay (token marked : Text) : Prop where
  marked : ∃ w ∈ markerNames, marked = '@' :: (w ++ ['@'])
  head : ∃ x ∈ markerEnds, x ∈ token.head?
  chars : ∀ c ∈ token, isLanguageChar .default c = true

theorem not_mem_markerNames {w : Text} (hw : w ∈ markerNames) : '@' ∉ w := fun h => by
  have := (chars_of_mem_markerNames hw).2 _ h
  revert this
  decide

namespace GivesWay

variable {token marked a u v v' : Text} (h : GivesWay token marked)
include h

/-- What stands before a marker is spelled with the operator in its place. -/
theorem spelledIn_left (ha : SpelledIn u a (marked ++ v)) : SpelledIn u a (token ++ v') := by
  obtain ⟨⟨name, -, rfl⟩, ⟨y, hy, hhead⟩, -⟩ := h
  rintro before c rest rfl
  refine (ha before c rest rfl).imp_right fun h => ⟨h.1, ?_⟩
  obtain ⟨w, hw, ⟨x, hx, hrest⟩ | hbefore⟩ := h.2
  · refine ⟨w, hw, .inl ?_⟩
    rcases Text.prefix_append_cases hrest with hin | ⟨t, hne, ht, hprefix⟩
    · exact ⟨x, hx, hin.trans (List.prefix_append _ _)⟩
    · -- the marker ends where the next one starts
      obtain ⟨d, t, rfl⟩ := List.exists_cons_of_ne_nil hne
      obtain ⟨rfl, -⟩ := List.cons_prefix_cons.mp hprefix
      obtain rfl : rest = w := by
        cases t using List.reverseRecOn with
        | nil => exact (List.append_inj' ht rfl).1.symm
        | append_singleton t e =>
          have ht : w ++ [x] = (rest ++ '@' :: t) ++ [e] := by simpa using ht
          refine absurd ?_ (not_mem_markerNames hw)
          rw [(List.append_inj' ht rfl).1]
          simp
      obtain ⟨token, rfl⟩ := List.head?_eq_some_iff.mp hhead
      exact ⟨y, hy, ⟨token ++ v', by simp⟩⟩
  · exact ⟨w, hw, .inr hbefore⟩

/-- What stands after a marker is spelled with the operator in its place. -/
theorem spelledIn_right (ha : SpelledIn (u ++ marked) a v) : SpelledIn (u ++ token) a v := by
  obtain ⟨⟨name, -, rfl⟩, -, -⟩ := h
  rintro before c rest rfl
  refine (ha before c rest rfl).imp_right fun h => ⟨h.1, ?_⟩
  obtain ⟨w, hw, hrest | hbefore⟩ := h.2
  · exact ⟨w, hw, .inl hrest⟩
  · refine ⟨w, hw, .inr ?_⟩
    rcases Text.suffix_append_cases hbefore with hin | ⟨t, hne, ht, hsuffix⟩
    · exact hin.trans (List.suffix_append _ _)
    · -- the name would reach over the end of the marker
      cases t using List.reverseRecOn with
      | nil => exact absurd rfl hne
      | append_singleton t e =>
        refine absurd ?_ (not_mem_markerNames hw)
        obtain ⟨s, hs⟩ := hsuffix
        have hs : (s ++ t) ++ [e] = (u ++ '@' :: name) ++ ['@'] := by simpa using hs
        obtain rfl : e = '@' := by simpa using (List.append_inj' hs rfl).2
        rw [ht]
        simp

/-- Operators in place of their marks leave a text spelled. -/
theorem spelled_intercalate (parts : List Text)
    (hspelled : SpelledIn u (marked.intercalate parts) []) :
    SpelledIn u (token.intercalate parts) [] := by
  induction parts generalizing u with
  | nil => exact hspelled
  | cons part parts ih =>
    cases parts with
    | nil => exact hspelled
    | cons next parts =>
      rw [List.intercalate_cons_cons, spelledIn_append, spelledIn_append] at hspelled ⊢
      obtain ⟨⟨hpart, -⟩, hrest⟩ := hspelled
      rw [← List.append_assoc] at hrest ⊢
      refine ⟨⟨?_, spelledIn_of_forall h.chars _ _⟩, ih ?_⟩
      · rw [List.append_assoc]
        exact h.spelledIn_left hpart
      · rw [← List.append_assoc]
        exact h.spelledIn_right hrest

theorem of_replaceAll {text : Text} (hspelled : Spelled (Text.replaceAll token marked text)) :
    Spelled text := by
  have hne : token ≠ [] := by
    obtain ⟨x, -, hx⟩ := h.head
    rintro rfl
    cases hx
  have hparts := h.spelled_intercalate _ hspelled
  rwa [intercalate_splitAll hne] at hparts

end GivesWay

theorem eq_or_givesWay_of_mem_tokens {entry : Text × Text} (h : entry ∈ Markers.common.tokens) :
    entry.1 = entry.2 ∨ GivesWay entry.1 entry.2 := by
  have hall : (Markers.common.tokens.all fun entry => entry.1 == entry.2 ||
      (markerNames.any (fun w => entry.2 == '@' :: (w ++ ['@'])) &&
        entry.1.head?.any (fun x => decide (x ∈ markerEnds)) &&
        entry.1.all (isLanguageChar .default))) = true := by decide
  have := List.all_eq_true.mp hall entry h
  simp only [Bool.or_eq_true, beq_iff_eq, Bool.and_eq_true, List.any_eq_true, Option.any_eq_true,
    decide_eq_true_eq, List.all_eq_true] at this
  refine this.imp_right fun ⟨⟨hmarked, ⟨x, hx, hend⟩⟩, hchars⟩ => ⟨hmarked, ⟨x, hend, hx⟩, hchars⟩

/-- A text is spelled if it is with its operators marked. -/
theorem Spelled.of_mark {text : Text} (h : Spelled (Markers.common.mark text)) : Spelled text := by
  have hfold (tokens : List (Text × Text)) (text : Text)
      (htokens : ∀ entry ∈ tokens, entry.1 = entry.2 ∨ GivesWay entry.1 entry.2)
      (h : Spelled (tokens.foldl (fun text entry =>
        if entry.1 = entry.2 then text else Text.replaceAll entry.1 entry.2 text) text)) :
      Spelled text := by
    induction tokens generalizing text with
    | nil => exact h
    | cons entry tokens ih =>
      obtain ⟨hentry, htokens⟩ := List.forall_mem_cons.mp htokens
      have hnext := ih _ htokens h
      dsimp only at hnext
      split at hnext
      · exact hnext
      · next hne => exact (hentry.resolve_left hne).of_replaceAll hnext
  exact hfold _ _ (fun _ => eq_or_givesWay_of_mem_tokens) h

end Source

end Formula
