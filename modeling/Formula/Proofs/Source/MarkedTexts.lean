import Formula.Proofs.Source.Fields

/-!
# Texts and their marked forms

An operator that contains a shorter one gives way to its mark, which starts and ends with `@`. In a
text without `@` the marks are the only places where it shows. So it is decided from the left where
marks begin and end, and a marked text stands for one text only, whatever names its operands have:
the `op0` between two marks of `x!=op0!=y` is an operand, and belongs to neither of them.

## Main definitions

* `Source.Marked`: a text, and the same text with marks in place of some of its operators.

## Main results

* `Source.Marked.unique`: a marked text stands for one text.
* `Source.marked_mark`: marking the operators of a text without `@` gives a marked form of it.
* `Source.Marked.mem_fields`: an operand of a marked text is a field of the text.
-/

namespace Formula

open Text

namespace Source

/-! ### Marks -/

/-- What stands for an operator in a marked text: the operator, or its mark. -/
theorem eq_or_mark_of_mem_tokens {entry : Text × Text} (h : entry ∈ Markers.common.tokens) :
    entry.1 = entry.2 ∨ entry.1 ≠ [] ∧ (∀ c ∈ entry.1, isIdentifierChar c = false) ∧
      ∃ w ∈ markerNames, entry.2 = '@' :: (w ++ ['@']) := by
  have hall : (Markers.common.tokens.all fun entry => entry.1 == entry.2 ||
      (!entry.1.isEmpty && (entry.1.all fun c => !isIdentifierChar c) &&
        markerNames.any fun w => entry.2 == '@' :: (w ++ ['@']))) = true := by decide
  have := List.all_eq_true.mp hall entry h
  simp only [Bool.or_eq_true, beq_iff_eq, Bool.and_eq_true, List.any_eq_true, List.all_eq_true,
    Bool.not_eq_true', List.isEmpty_eq_false_iff] at this
  exact this.imp_right fun ⟨⟨hne, hchars⟩, hmark⟩ => ⟨hne, hchars, hmark⟩

/-- A token stands alone, or starts with `@`; it is made of characters of operators. -/
theorem token_cases {entry : Text × Text} (h : entry ∈ Markers.common.tokens) :
    entry.1 ≠ [] ∧ (∀ c ∈ entry.1, isOperatorChar c = true ∧ c ≠ '@') ∧
      (entry.2.head? = some '@' ∨ entry.2 = entry.1 ∧ ∃ c, entry.1 = [c]) := by
  have hall : (Markers.common.tokens.all fun entry => !entry.1.isEmpty &&
      (entry.1.all fun c => isOperatorChar c && c != '@') &&
        (entry.2.head? == some '@' || (entry.2 == entry.1 && entry.1.length == 1))) = true := by decide
  have := List.all_eq_true.mp hall entry h
  simp only [Bool.and_eq_true, Bool.not_eq_true', List.isEmpty_eq_false_iff, List.all_eq_true,
    bne_iff_ne, Bool.or_eq_true, beq_iff_eq, List.length_eq_one_iff] at this
  exact ⟨this.1.1, this.1.2, this.2⟩

/-- Tokens with the same mark are the same. -/
theorem eq_of_mark_eq {entry entry' : Text × Text} (h : entry ∈ Markers.common.tokens)
    (h' : entry' ∈ Markers.common.tokens) (heq : entry.2 = entry'.2) : entry = entry' := by
  have hall : (Markers.common.tokens.all fun entry => Markers.common.tokens.all fun entry' =>
      entry.2 != entry'.2 || entry == entry') = true := by decide
  have := List.all_eq_true.mp (List.all_eq_true.mp hall entry h) entry' h'
  rw [heq, bne_self_eq_false, Bool.false_or] at this
  exact eq_of_beq this

/-- A single character of operators is a token that is left as it is. -/
theorem mem_tokens_of_isOperatorChar {c : Char} (h : isOperatorChar c = true) (hc : c ≠ '@') :
    ([c], [c]) ∈ Markers.common.tokens := by
  have hall : (['!', '#', '%', '&', '*', '+', '-', '/', '<', '=', '>', '^', '|'].all fun c =>
      decide (([c], [c]) ∈ Markers.common.tokens)) = true := by decide
  exact of_decide_eq_true (List.all_eq_true.mp hall c
    ((List.mem_cons.mp (of_decide_eq_true h)).resolve_left hc))

/-! ### Marked forms -/

/-- A text, and the same text with marks in place of some of its operators. -/
inductive Marked : Text → Text → Prop
  | nil : Marked [] []
  | char {c : Char} {text marked : Text} (hc : c ≠ '@') (h : Marked text marked) :
      Marked (c :: text) (c :: marked)
  | mark {token w text marked : Text} (hw : w ∈ markerNames)
      (htoken : (token, '@' :: (w ++ ['@'])) ∈ Markers.common.tokens) (h : Marked text marked) :
      Marked (token ++ text) ('@' :: (w ++ '@' :: marked))

/-- What stands before the first `@` of two texts, and what stands after it, are the same. -/
theorem append_at_inj {w w' a b : Text} (hw : '@' ∉ w) (hw' : '@' ∉ w')
    (h : w ++ '@' :: a = w' ++ '@' :: b) : w = w' ∧ a = b := by
  have hcut := cut?_append_cons hw a
  rw [h, cut?_append_cons hw' b] at hcut
  obtain ⟨rfl, rfl⟩ := Prod.mk.inj (Option.some.inj hcut)
  exact ⟨rfl, rfl⟩

namespace Marked

variable {a b text text' marked marked' : Text}

theorem append (h : Marked text marked) (h' : Marked text' marked') :
    Marked (text ++ text') (marked ++ marked') := by
  induction h with
  | nil => exact h'
  | char hc _ ih => exact .char hc ih
  | mark hw htoken _ ih =>
    rw [List.append_assoc, List.cons_append, List.append_assoc, List.cons_append]
    exact .mark hw htoken ih

theorem of_not_mem (h : '@' ∉ text) : Marked text text := by
  induction text with
  | nil => exact .nil
  | cons c text ih =>
    rw [List.mem_cons, not_or] at h
    exact .char (Ne.symm h.1) (ih h.2)

/-- The marked form of a token. -/
theorem of_mem_tokens {entry : Text × Text} (h : entry ∈ Markers.common.tokens) :
    Marked entry.1 entry.2 := by
  obtain ⟨token, mark⟩ := entry
  rcases eq_or_mark_of_mem_tokens h with heq | ⟨-, -, w, hw, heq⟩
  · dsimp only at heq
    subst heq
    exact of_not_mem fun hmem => ((token_cases h).2.1 _ hmem).2 rfl
  · dsimp only at heq
    subst heq
    simpa using Marked.mark hw h .nil

/-- A marked text stands for one text. -/
theorem unique (h : Marked a marked) (h' : Marked b marked) : a = b := by
  induction h generalizing b with
  | nil => cases h' with | nil => rfl
  | char hc _ ih =>
    cases h' with
    | char _ h' => rw [ih h']
    | mark => exact absurd rfl hc
  | @mark token w text marked hw htoken _ ih =>
    generalize heq : '@' :: (w ++ '@' :: marked) = whole at h'
    cases h' with
    | nil => cases heq
    | char hc => exact absurd (List.cons.inj heq).1.symm hc
    | @mark token' w' text' marked' hw' htoken' h' =>
      obtain ⟨rfl, rfl⟩ := append_at_inj (not_mem_markerNames hw) (not_mem_markerNames hw')
        (List.cons.inj heq).2
      obtain rfl := congrArg Prod.fst (eq_of_mark_eq htoken htoken' rfl)
      rw [ih h']

/-- The characters of marks. -/
def chars : Text := ['@', 'o', 'p', '0', '1', '2', '3', '4']

theorem mem_chars {w : Text} (hw : w ∈ markerNames) : ∀ c ∈ '@' :: (w ++ ['@']), c ∈ chars := by
  have hat : '@' ∈ chars := List.mem_cons_self ..
  refine List.forall_mem_cons.mpr ⟨hat, List.forall_mem_append.mpr
    ⟨fun c hc => ?_, List.forall_mem_singleton.mpr hat⟩⟩
  exact List.mem_cons_of_mem _ ((chars_of_mem_markerNames hw).2 c hc)

/-- What is no part of a mark stands in the text as well, with the marked forms of its sides. -/
theorem exists_of_append_cons {c : Char} {before rest : Text} (hc : c ∉ chars)
    (h : Marked text (before ++ c :: rest)) :
    ∃ a b, text = a ++ c :: b ∧ Marked a before ∧ Marked b rest := by
  generalize heq : before ++ c :: rest = marked at h
  induction h generalizing before with
  | nil => simp at heq
  | char hd h ih =>
    cases before with
    | nil =>
      obtain ⟨rfl, rfl⟩ := List.cons.inj heq
      exact ⟨[], _, rfl, .nil, h⟩
    | cons d before =>
      obtain ⟨rfl, rfl⟩ := List.cons.inj heq
      obtain ⟨a, b, rfl, ha, hb⟩ := ih rfl
      exact ⟨_ :: a, b, rfl, .char hd ha, hb⟩
  | @mark token w text marked hw htoken h ih =>
    have heq : before ++ c :: rest = ('@' :: (w ++ ['@'])) ++ marked := by simpa using heq
    rcases List.append_eq_append_iff.mp heq with ⟨t, ht, hrest⟩ | ⟨t, rfl, hrest⟩
    · cases t with
      | nil =>
        -- the mark ends where the character stands
        obtain ⟨a, b, rfl, ha, hb⟩ := @ih [] (by simpa using hrest)
        refine ⟨token ++ a, b, by simp, ?_, hb⟩
        rw [List.append_nil] at ht
        rw [← ht]
        simpa using Marked.mark hw htoken ha
      | cons d t =>
        obtain ⟨rfl, -⟩ := List.cons.inj hrest
        exact absurd (mem_chars hw c (by rw [ht]; simp)) hc
    · obtain ⟨a, b, rfl, ha, hb⟩ := ih hrest.symm
      refine ⟨token ++ a, b, by simp, ?_, hb⟩
      simpa using Marked.mark hw htoken ha

theorem exists_of_prefix {token rest : Text} (htoken : ∀ c ∈ token, c ∉ chars)
    (h : Marked text (token ++ rest)) : ∃ b, text = token ++ b ∧ Marked b rest := by
  induction token generalizing text with
  | nil => exact ⟨text, rfl, h⟩
  | cons c token ih =>
    obtain ⟨hc, htoken⟩ := List.forall_mem_cons.mp htoken
    rw [List.cons_append] at h
    generalize heq : c :: (token ++ rest) = marked at h
    cases h with
    | nil => cases heq
    | char _ h =>
      obtain ⟨rfl, rfl⟩ := List.cons.inj heq
      obtain ⟨b, rfl, hb⟩ := ih htoken h
      exact ⟨b, rfl, hb⟩
    | mark =>
      obtain ⟨rfl, -⟩ := List.cons.inj heq
      exact absurd (List.mem_cons_self ..) hc

/-- What has no characters of marks stands in the text as well, with the marked forms of its sides. -/
theorem exists_of_append {token before rest : Text} (hne : token ≠ [])
    (htoken : ∀ c ∈ token, c ∉ chars) (h : Marked text (before ++ token ++ rest)) :
    ∃ a b, text = a ++ token ++ b ∧ Marked a before ∧ Marked b rest := by
  obtain ⟨c, token, rfl⟩ := List.exists_cons_of_ne_nil hne
  obtain ⟨hc, htoken⟩ := List.forall_mem_cons.mp htoken
  rw [List.append_assoc, List.cons_append] at h
  obtain ⟨a, b, rfl, ha, hb⟩ := h.exists_of_append_cons hc
  obtain ⟨b', rfl, hb'⟩ := hb.exists_of_prefix htoken
  exact ⟨a, b', by simp, ha, hb'⟩

theorem mem_of_mem {c : Char} (hc : c ∉ chars) (h : Marked text marked) (hmem : c ∈ marked) :
    c ∈ text := by
  obtain ⟨before, rest, rfl⟩ := List.append_of_mem hmem
  obtain ⟨a, b, rfl, -⟩ := h.exists_of_append_cons hc
  simp

/-- An operator gives way to its mark. -/
theorem replaceAll {token mark : Text} (htoken : (token, mark) ∈ Markers.common.tokens)
    (h : Marked text marked) : Marked text (Text.replaceAll token mark marked) := by
  have hne : token ≠ [] := (token_cases htoken).1
  have hchars : ∀ c ∈ token, c ∉ chars := by
    have hall : (Markers.common.tokens.all fun entry => entry.1.all fun c => decide (c ∉ chars)) =
        true := by
      decide
    exact fun c hc => of_decide_eq_true (List.all_eq_true.mp (List.all_eq_true.mp hall _ htoken) c hc)
  rw [Text.replaceAll]
  rw [← intercalate_splitAll hne marked] at h
  generalize splitAll token marked = parts at h
  induction parts generalizing text with
  | nil => exact h
  | cons part parts ih =>
    cases parts with
    | nil => exact h
    | cons next parts =>
      rw [List.intercalate_cons_cons] at h ⊢
      obtain ⟨a, b, rfl, ha, hb⟩ := h.exists_of_append hne hchars
      exact (ha.append (of_mem_tokens htoken)).append (ih hb)

end Marked

/-- Marking the operators of a text without `@` gives a marked form of it. -/
theorem marked_mark {text : Text} (h : '@' ∉ text) : Marked text (Markers.common.mark text) := by
  have hfold (tokens : List (Text × Text)) (htokens : ∀ entry ∈ tokens, entry ∈ Markers.common.tokens)
      {marked : Text} (hmarked : Marked text marked) :
      Marked text (tokens.foldl (fun text entry =>
        if entry.1 = entry.2 then text else Text.replaceAll entry.1 entry.2 text) marked) := by
    induction tokens generalizing marked with
    | nil => exact hmarked
    | cons entry tokens ih =>
      obtain ⟨hentry, htokens⟩ := List.forall_mem_cons.mp htokens
      refine ih htokens ?_
      dsimp only
      split
      · exact hmarked
      · exact hmarked.replaceAll hentry
  exact hfold _ (fun _ h => h) (.of_not_mem h)

/-! ### Operands and fields -/

/-- Characters of operators stand between fields. -/
theorem fields_append_of_forall {token : Text} (hne : token ≠ [])
    (htoken : ∀ c ∈ token, isOperatorChar c = true) (a b : Text) :
    ∃ us, fields (a ++ token ++ b) = fields a ++ us ++ fields b ∧ ∀ x ∈ us, x = [] := by
  induction token generalizing a with
  | nil => exact absurd rfl hne
  | cons c token ih =>
    obtain ⟨hc, htoken⟩ := List.forall_mem_cons.mp htoken
    rw [List.append_assoc, List.cons_append, fields_append_cons hc]
    by_cases hnil : token = []
    · exact ⟨[], by simp [hnil], by simp⟩
    · obtain ⟨us, hus, hempty⟩ := ih hnil htoken []
      rw [List.nil_append] at hus
      refine ⟨[] :: us, ?_, List.forall_mem_cons.mpr ⟨rfl, hempty⟩⟩
      rw [hus]
      simp [fields]

/-- A token in front of a marked text is passed as a whole. -/
theorem operandsFrom_token {entry : Text × Text} (h : entry ∈ Markers.common.tokens) (rest : Text) :
    Markers.common.operandsFrom 0 (entry.2 ++ rest) = [] :: Markers.common.operandsFrom 0 rest := by
  have hall : (Markers.common.tokens.all fun entry => Markers.common.tokens.all fun entry' =>
      !entry.2.isPrefixOf entry'.2 || entry.2 == entry'.2) = true := by decide
  have hleads {entry entry' : Text × Text} (h : entry ∈ Markers.common.tokens)
      (h' : entry' ∈ Markers.common.tokens) (hp : entry.2 <+: entry'.2) : entry.2 = entry'.2 := by
    have := List.all_eq_true.mp (List.all_eq_true.mp hall entry h) entry' h'
    rw [List.isPrefixOf_iff_prefix.mpr hp] at this
    simpa using this
  obtain ⟨c, token, d, htoken, -⟩ := isOperatorChar_of_mem_tokens h
  rw [htoken, List.cons_append, Markers.operandsFrom]
  have hstarts : (Markers.common.tokens.find? fun entry =>
      startsWith entry.2 (c :: (token ++ rest))).isSome = true := by
    refine List.find?_isSome.mpr ⟨entry, h, ?_⟩
    exact Option.isSome_iff_exists.mpr ⟨rest, after?_eq_some_iff.mpr (by rw [htoken]; rfl)⟩
  obtain ⟨entry', hfind⟩ := Option.isSome_iff_exists.mp hstarts
  obtain ⟨rest', hrest⟩ := Option.isSome_iff_exists.mp
    (List.find?_some (p := fun entry : Text × Text => startsWith entry.2 (c :: (token ++ rest))) hfind)
  have hmem := List.mem_of_find?_eq_some hfind
  have heq : entry'.2 = entry.2 := by
    have htext : entry'.2 ++ rest' = entry.2 ++ rest := by
      rw [← after?_eq_some_iff.mp hrest, htoken, List.cons_append]
    rcases List.prefix_or_prefix_of_prefix (List.prefix_append entry'.2 rest')
      (htext ▸ List.prefix_append entry.2 rest) with hp | hp
    · exact hleads hmem h hp
    · exact (hleads h hmem hp).symm
  rw [hfind]
  dsimp only
  rw [heq, htoken]
  exact congrArg ([] :: ·) (operandsFrom_skip Markers.common token rest)

/-- The operands of a marked text are the first field of the text and further ones, as far as they
have no operators. -/
theorem Marked.operandsFrom_fields {text marked : Text} (h : Marked text marked) : ∃ y ys z zs,
    Markers.common.operandsFrom 0 marked = y :: ys ∧ fields text = z :: zs ∧
      ((∀ c ∈ y, isOperatorChar c = false) → y = z) ∧
        ∀ x ∈ ys, (∀ c ∈ x, isOperatorChar c = false) → x ∈ zs := by
  have hpassed {token mark text marked : Text} (htoken : (token, mark) ∈ Markers.common.tokens)
      (ih : ∃ y ys z zs, Markers.common.operandsFrom 0 marked = y :: ys ∧ fields text = z :: zs ∧
        ((∀ c ∈ y, isOperatorChar c = false) → y = z) ∧
          ∀ x ∈ ys, (∀ c ∈ x, isOperatorChar c = false) → x ∈ zs) :
      ∃ y ys z zs, Markers.common.operandsFrom 0 (mark ++ marked) = y :: ys ∧
        fields (token ++ text) = z :: zs ∧ ((∀ c ∈ y, isOperatorChar c = false) → y = z) ∧
          ∀ x ∈ ys, (∀ c ∈ x, isOperatorChar c = false) → x ∈ zs := by
    obtain ⟨y, ys, z, zs, hoperands, hfields, hfirst, hmore⟩ := ih
    obtain ⟨hne, hchars, -⟩ := token_cases htoken
    obtain ⟨us, hus, -⟩ := fields_append_of_forall hne (fun c hc => (hchars c hc).1) [] text
    refine ⟨[], y :: ys, [], us ++ (z :: zs), ?_, ?_, fun _ => rfl, fun x hx hx' => ?_⟩
    · rw [operandsFrom_token htoken, hoperands]
    · rw [← hfields, ← List.nil_append token, hus]
      rfl
    · refine List.mem_append_right us ?_
      rcases List.mem_cons.mp hx with rfl | hx
      · exact hfirst hx' ▸ List.mem_cons_self ..
      · exact List.mem_cons_of_mem _ (hmore x hx hx')
  induction h with
  | nil => exact ⟨[], [], [], [], rfl, rfl, fun _ => rfl, by simp⟩
  | @char c text marked hc h ih =>
    cases hop : isOperatorChar c with
    | true =>
      exact hpassed (mem_tokens_of_isOperatorChar hop hc) ih
    | false =>
      have hnone : Markers.common.tokens.find? (fun entry => startsWith entry.2 (c :: marked)) = none := by
        refine List.find?_eq_none.mpr fun entry hentry hstarts => ?_
        obtain ⟨rest, hrest⟩ := Option.isSome_iff_exists.mp hstarts
        obtain ⟨d, token, e, htoken, hd, -⟩ := isOperatorChar_of_mem_tokens hentry
        have htext := after?_eq_some_iff.mp hrest
        rw [htoken] at htext
        obtain ⟨rfl, -⟩ := List.cons.inj htext
        cases hop.symm.trans hd
      obtain ⟨y, ys, z, zs, hoperands, hfields, hfirst, hmore⟩ := ih
      refine ⟨c :: y, ys, c :: z, zs, ?_, ?_, fun hy => ?_, hmore⟩
      · rw [Markers.operandsFrom, hnone]
        dsimp only
        rw [hoperands, List.modifyHead_cons]
      · rw [fields, List.splitOnP_cons_eq_if_modifyHead, if_neg (by simp [hop])]
        rw [fields] at hfields
        rw [hfields, List.modifyHead_cons]
      · rw [hfirst fun d hd => hy d (List.mem_cons_of_mem _ hd)]
  | @mark token w text marked hw htoken h ih => simpa using hpassed htoken ih

/-- Around an operator, the sides of a marked text stand for the sides of the text. -/
theorem Marked.exists_sides {left token right text : Text} (hleft : ∃ a, Marked a left)
    (hright : ∃ b, Marked b right) (htoken : ∃ entry ∈ Markers.common.tokens, entry.2 = token)
    (h : Marked text (left ++ token ++ right)) : ∃ a op b, text = a ++ op ++ b ∧
      Marked a left ∧ Marked b right ∧ op ≠ [] ∧ ∀ c ∈ op, isOperatorChar c = true := by
  obtain ⟨a, ha⟩ := hleft
  obtain ⟨b, hb⟩ := hright
  obtain ⟨entry, hentry, rfl⟩ := htoken
  obtain ⟨hne, hchars, -⟩ := token_cases hentry
  exact ⟨a, entry.1, b, h.unique ((ha.append (of_mem_tokens hentry)).append hb), ha, hb, hne,
    fun c hc => (hchars c hc).1⟩

/-- An operand of a marked text that has no operators is a field of the text. -/
theorem Marked.mem_fields {text marked x : Text} (h : Marked text marked)
    (hx : x ∈ Markers.common.operandsFrom 0 marked) (hchars : ∀ c ∈ x, isOperatorChar c = false) :
    x ∈ fields text := by
  obtain ⟨y, ys, z, zs, hoperands, hfields, hfirst, hmore⟩ := h.operandsFrom_fields
  rw [hfields]
  rcases List.mem_cons.mp (hoperands ▸ hx) with rfl | hx
  · exact hfirst hchars ▸ List.mem_cons_self ..
  · exact List.mem_cons_of_mem _ (hmore x hx hchars)

end Source

end Formula
