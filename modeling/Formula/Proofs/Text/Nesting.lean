import Mathlib.Data.List.TakeWhile
import Formula.Compile.Calls
import Formula.Proofs.Text.Occurrences

/-!
# Balanced text

Cutting a text at a single character, and the searches that count parentheses. In a balanced text
every open parenthesis has a close one after it, so these searches pass over it and come out at the
depth they went in with. Separators that stand inside parentheses do not split a text.

## Main definitions

* `Text.Balanced`: the parentheses match, and separators stand inside them.
* `Text.depthAfter?`: the depth at which a text ends.

## Main results

* `Text.cuts_append`, `Text.cut?_append_cons`, `Text.cutLast?_append_cons`,
  `Text.splitAll_intercalate`: cutting at a character.
* `lastWord_append_left`: the last word of a text that has other characters before its end.
* `Text.matchClose?_append`, `Text.splitTop_append`: balanced text is passed over.
* `Text.splitTop_intercalate`: balanced parts are split at the separators between them.
* `Text.depthAfter?_of_matchClose?`, `Text.exists_of_splitTop`: what the searches find is nested
  properly.
-/

namespace Formula

namespace Text

/-! ### Cutting at a character -/

theorem cutsFrom_eq_map (c : Char) (passed text : Text) :
    cutsFrom [c] 0 passed text =
      (cutsFrom [c] 0 [] text).map fun p => (passed.reverse ++ p.1, p.2) := by
  induction text generalizing passed with
  | nil => rfl
  | cons d text ih =>
    have hnext : cutsFrom [c] 0 (d :: passed) text =
        (cutsFrom [c] 0 [d] text).map fun p => (passed.reverse ++ p.1, p.2) := by
      rw [ih (d :: passed), ih [d], List.map_map]
      simp [Function.comp_def]
    rw [cutsFrom, cutsFrom]
    split
    · rw [List.map_cons, List.length_singleton, Nat.sub_self, hnext]
      simp
    · exact hnext

theorem cuts_cons (c d : Char) (text : Text) :
    cuts [c] (d :: text) =
      (if c = d then [([], text)] else []) ++ (cuts [c] text).map fun p => (d :: p.1, p.2) := by
  rw [cuts, cutsFrom, List.length_singleton, Nat.sub_self, cutsFrom_eq_map]
  by_cases hcd : c = d <;> simp [after?, hcd, cuts]

/-- The cuts of two texts after each other. -/
theorem cuts_append (c : Char) (u v : Text) :
    cuts [c] (u ++ v) =
      (cuts [c] u).map (fun p => (p.1, p.2 ++ v)) ++ (cuts [c] v).map fun p => (u ++ p.1, p.2) := by
  induction u with
  | nil => simp [cuts, cutsFrom]
  | cons d u ih =>
    rw [List.cons_append, cuts_cons, cuts_cons, ih]
    by_cases hcd : c = d <;> simp [hcd, Function.comp_def]

theorem cut?_append_cons {c : Char} {a : Text} (h : c ∉ a) (b : Text) :
    cut? [c] (a ++ c :: b) = some (a, b) := by
  induction a with
  | nil => simp [cut?, after?]
  | cons d a ih =>
    simp only [List.mem_cons, not_or] at h
    simp [cut?, after?, h.1, ih h.2]

theorem not_mem_of_cut? {c : Char} {text before rest : Text}
    (h : cut? [c] text = some (before, rest)) : c ∉ before := by
  induction text generalizing before with
  | nil => simp [cut?, after?] at h
  | cons d text ih =>
    rw [cut?] at h
    split at h
    · obtain ⟨rfl, -⟩ := Prod.mk.inj (Option.some.inj h)
      exact List.not_mem_nil
    · next hafter =>
      obtain ⟨⟨before', rest'⟩, hcut, heq⟩ := Option.map_eq_some_iff.mp h
      obtain ⟨rfl, rfl⟩ := Prod.mk.inj heq
      refine List.not_mem_cons_of_ne_of_not_mem ?_ (ih hcut)
      rintro rfl
      simp [after?] at hafter

theorem cutLast?_append_cons {c : Char} (a : Text) {b : Text} (h : c ∉ b) :
    cutLast? [c] (a ++ c :: b) = some (a, b) := by
  induction a with
  | nil => simp [cutLast?, cutLast?_eq_none (List.mem_singleton_self c) h, after?]
  | cons d a ih => simp [cutLast?, ih]

theorem before?_append_singleton (c : Char) (a : Text) : before? [c] (a ++ [c]) = some a := by
  simp [before?, after?]

/-- Parts without a character are the pieces between its occurrences. -/
theorem splitAll_intercalate {c : Char} {parts : List Text} (hne : parts ≠ [])
    (h : ∀ part ∈ parts, c ∉ part) : splitAll [c] ([c].intercalate parts) = parts := by
  have hcons (part rest : Text) (hpart : c ∉ part) :
      splitAll [c] (part ++ c :: rest) = part :: splitAll [c] rest := by
    induction part with
    | nil => simp [splitAll, splitFrom]
    | cons d part ih =>
      simp only [List.mem_cons, not_or] at hpart
      have := ih hpart.2
      rw [splitAll] at this
      simp [splitAll, splitFrom, hpart.1, this]
  induction parts with
  | nil => exact absurd rfl hne
  | cons part parts ih =>
    obtain ⟨hpart, hparts⟩ := List.forall_mem_cons.mp h
    cases parts with
    | nil => simpa [List.intercalate] using splitAll_eq_singleton (List.mem_singleton_self c) hpart
    | cons next parts =>
      have := ih (List.cons_ne_nil _ _) hparts
      rw [List.intercalate_cons_cons, List.append_assoc, List.singleton_append,
        hcons part _ hpart, this]

end Text

/-! ### The last word -/

/-- What precedes the last word changes nothing about it, if a character that is none of words
stands between. -/
theorem lastWord_append_left {u v : Text}
    (h : (∀ c ∈ u.getLast?, Text.isWordChar c = false) ∨ ∃ c ∈ v, Text.isWordChar c = false) :
    lastWord (u ++ v) = (u ++ (lastWord v).1, (lastWord v).2) := by
  simp only [lastWord, List.reverse_append, List.takeWhile_append, List.dropWhile_append]
  by_cases hall : ∀ c ∈ v, Text.isWordChar c = true
  · have hrev : ∀ c ∈ v.reverse, Text.isWordChar c = true := by simpa using hall
    have hlast : ∀ c ∈ u.getLast?, Text.isWordChar c = false := by
      rcases h with h | ⟨c, hc, hnot⟩
      · exact h
      · rw [hall c hc] at hnot
        cases hnot
    have htake : u.reverse.takeWhile Text.isWordChar = [] := by
      cases hu : u.reverse with
      | nil => rfl
      | cons d rest =>
        have hd : d ∈ u.getLast? := by simp [← List.head?_reverse, hu]
        simp [hlast d hd]
    have hdrop : u.reverse.dropWhile Text.isWordChar = u.reverse := by
      have := List.takeWhile_append_dropWhile (p := Text.isWordChar) (l := u.reverse)
      rwa [htake, List.nil_append] at this
    simp [List.takeWhile_eq_self_iff.mpr hrev, List.dropWhile_eq_nil_iff.mpr hrev, htake, hdrop]
  · have hshort : (v.reverse.takeWhile Text.isWordChar).length ≠ v.reverse.length := fun hlen => by
      have heq := (List.takeWhile_prefix Text.isWordChar).eq_of_length hlen
      exact hall (by simpa using List.takeWhile_eq_self_iff.mp heq)
    have hrest : (v.reverse.dropWhile Text.isWordChar).isEmpty = false := by
      rw [List.isEmpty_eq_false_iff]
      intro hnil
      exact hall (by simpa using List.dropWhile_eq_nil_iff.mp hnil)
    rw [if_neg hshort, if_neg (by simp [hrest])]
    simp

theorem lastWord_word {x : Text} (h : ∀ c ∈ x, Text.isWordChar c = true) :
    lastWord x = ([], x) := by
  have hrev : ∀ c ∈ x.reverse, Text.isWordChar c = true := by simpa using h
  simp [lastWord, List.takeWhile_eq_self_iff.mpr hrev, List.dropWhile_eq_nil_iff.mpr hrev]

namespace Text

/-! ### Balanced text -/

/-- The parentheses of a text match. Separators stand inside them, or anywhere if the text itself
stands inside. -/
inductive Balanced : (inside : Bool) → Text → Prop
  | nil (inside : Bool) : Balanced inside []
  | char {inside : Bool} {c : Char} {rest : Text} (hopen : c ≠ '(') (hclose : c ≠ ')')
      (hseparator : c = ',' → inside = true) (hrest : Balanced inside rest) :
      Balanced inside (c :: rest)
  | group {inside : Bool} {inner rest : Text} (hinner : Balanced true inner)
      (hrest : Balanced inside rest) : Balanced inside ('(' :: (inner ++ ')' :: rest))

namespace Balanced

variable {inside : Bool} {u v : Text}

theorem append (hu : Balanced inside u) (hv : Balanced inside v) : Balanced inside (u ++ v) := by
  induction hu with
  | nil => exact hv
  | char hopen hclose hseparator _ ih => exact .char hopen hclose hseparator (ih hv)
  | group hinner _ _ ih =>
    rw [List.cons_append, List.append_assoc, List.cons_append]
    exact .group hinner (ih hv)

theorem of_inside (h : Balanced inside u) : Balanced true u := by
  induction h with
  | nil => exact .nil _
  | char hopen hclose _ _ ih => exact .char hopen hclose (fun _ => rfl) ih
  | group hinner _ _ ih => exact .group hinner ih

theorem of_forall (h : ∀ c ∈ u, c ≠ '(' ∧ c ≠ ')' ∧ c ≠ ',') : Balanced inside u := by
  induction u with
  | nil => exact .nil _
  | cons c u ih =>
    obtain ⟨⟨hopen, hclose, hseparator⟩, hu⟩ := List.forall_mem_cons.mp h
    exact .char hopen hclose (fun heq => absurd heq hseparator) (ih hu)

theorem intercalate {parts : List Text} (h : ∀ part ∈ parts, Balanced inside part) :
    Balanced true ([','].intercalate parts) := by
  induction parts with
  | nil => exact .nil _
  | cons part parts ih =>
    obtain ⟨hpart, hparts⟩ := List.forall_mem_cons.mp h
    cases parts with
    | nil => simpa [List.intercalate] using hpart.of_inside
    | cons next parts =>
      rw [List.intercalate_cons_cons, List.append_assoc]
      exact hpart.of_inside.append
        (.char (by decide) (by decide) (fun _ => rfl) (ih hparts))

end Balanced

/-- Balanced text is passed over in the search for a close parenthesis. -/
theorem matchClose?_append {inside : Bool} {u : Text} (h : Balanced inside u) (depth : Nat)
    (v : Text) :
    matchClose? ['('] [')'] depth 0 (u ++ v) =
      (matchClose? ['('] [')'] depth 0 v).map fun p => (u ++ p.1, p.2) := by
  induction h generalizing depth v with
  | nil => simp
  | char hopen hclose _ _ ih =>
    rw [List.cons_append, matchClose?]
    simp [Ne.symm hopen, Ne.symm hclose, ih, Function.comp_def]
  | group _ _ ihinner ihrest =>
    rw [List.cons_append, List.append_assoc, List.cons_append, matchClose?]
    rw [if_pos (by simp), List.length_singleton, Nat.sub_self, ihinner,
      matchClose?]
    simp [ihrest, Function.comp_def]

/-- The close parenthesis after a balanced text is the one that matches. -/
theorem matchClose?_close {inside : Bool} {u : Text} (h : Balanced inside u) (v : Text) :
    matchClose? ['('] [')'] 0 0 (u ++ ')' :: v) = some (u, v) := by
  rw [matchClose?_append h, matchClose?]
  simp

theorem splitTop_keep (opening closing separator : Text) (depth : Nat) (keep : Bool) (text : Text) :
    splitTop opening closing separator depth 0 keep text =
      splitTop opening closing separator depth 0 true text := by
  cases text <;> rfl

/-- Balanced text is not split. -/
theorem splitTop_append {inside : Bool} {u : Text} (h : Balanced inside u) {depth : Nat}
    (hdepth : inside = true → 0 < depth) (v : Text) :
    splitTop ['('] [')'] [','] depth 0 true (u ++ v) =
      (splitTop ['('] [')'] [','] depth 0 true v).modifyHead (u ++ ·) := by
  induction h generalizing depth v with
  | nil => exact (congrFun List.modifyHead_id _).symm
  | @char inside c rest hopen hclose hseparator _ ih =>
    have hinside : ¬(depth = 0 ∧ startsWith [','] (c :: (rest ++ v)) = true) := by
      rintro ⟨rfl, hstarts⟩
      have hc : c = ',' := by
        by_contra hne
        simp [Ne.symm hne] at hstarts
      exact absurd (hdepth (hseparator hc)) (Nat.lt_irrefl 0)
    rw [List.cons_append, splitTop, if_neg (by simp [Ne.symm hopen]),
      if_neg (by simp [Ne.symm hclose]), if_neg hinside, ih hdepth,
      List.modifyHead_modifyHead]
    rfl
  | group _ _ ihinner ihrest =>
    rw [List.cons_append, List.append_assoc, List.cons_append, splitTop,
      if_pos (by simp), List.length_singleton, Nat.sub_self,
      ihinner fun _ => (by omega : 0 < depth + 1), splitTop, if_neg (by simp),
      if_pos (by simp), List.length_singleton, Nat.sub_self,
      Nat.add_sub_cancel, ihrest hdepth]
    simp [List.modifyHead_modifyHead, Function.comp_def]

/-- Balanced parts are split at the separators between them. -/
theorem splitTop_intercalate {parts : List Text} (hne : parts ≠ [])
    (h : ∀ part ∈ parts, Balanced false part) :
    splitTop ['('] [')'] [','] 0 0 true ([','].intercalate parts) = parts := by
  induction parts with
  | nil => exact absurd rfl hne
  | cons part parts ih =>
    obtain ⟨hpart, hparts⟩ := List.forall_mem_cons.mp h
    cases parts with
    | nil =>
      have hwhole : splitTop ['('] [')'] [','] 0 0 true (part ++ []) = [part ++ []] :=
        splitTop_append hpart nofun []
      simpa [List.intercalate] using hwhole
    | cons next parts =>
      rw [List.intercalate_cons_cons, List.append_assoc, splitTop_append hpart nofun,
        List.singleton_append, splitTop, if_neg (by simp),
        if_neg (by simp), if_pos (by simp),
        List.length_singleton, Nat.sub_self, splitTop_keep, ih (List.cons_ne_nil _ _) hparts]
      simp

/-! ### Depth -/

/-- The number of parentheses that are open after a text, if some are open before it. Nothing if one
closes that is not open, or if a separator stands outside all parentheses; the text itself may stand
inside some. -/
def depthAfter? (inside : Bool) : Nat → Text → Option Nat
  | depth, [] => some depth
  | depth, c :: text =>
    if c = '(' then depthAfter? inside (depth + 1) text
    else if c = ')' then
      if depth = 0 then none else depthAfter? inside (depth - 1) text
    else if c = ',' ∧ depth = 0 ∧ inside = false then none
    else depthAfter? inside depth text

section Depth

variable {inside : Bool} {u : Text}

theorem depthAfter?_append (depth : Nat) (v : Text) :
    depthAfter? inside depth (u ++ v) =
      (depthAfter? inside depth u).bind fun depth => depthAfter? inside depth v := by
  induction u generalizing depth with
  | nil => rfl
  | cons c u ih =>
    rw [List.cons_append, depthAfter?, depthAfter?]
    repeat' split
    · exact ih _
    · rfl
    · exact ih _
    · rfl
    · exact ih _

/-- A text that may stand inside parentheses does so at every depth. -/
theorem depthAfter?_add {depth depth' : Nat} (h : depthAfter? true depth u = some depth') {base : Nat}
    (hbase : 0 < base) : depthAfter? inside (depth + base) u = some (depth' + base) := by
  induction u generalizing depth with
  | nil =>
    obtain rfl := Option.some.inj h
    rfl
  | cons c u ih =>
    rw [depthAfter?] at h ⊢
    split at h
    · next hopen =>
      rw [if_pos hopen, Nat.add_right_comm]
      exact ih h
    · next hopen =>
      rw [if_neg hopen]
      split at h
      · next hclose =>
        rw [if_pos hclose]
        split at h
        · cases h
        · next hpos =>
          rw [if_neg (by omega), Nat.sub_add_comm (Nat.pos_of_ne_zero hpos)]
          exact ih h
      · next hclose =>
        rw [if_neg hclose, if_neg fun h => (by omega : depth + base ≠ 0) h.2.1]
        exact ih (by simpa using h)

/-- What is enclosed in parentheses changes nothing about the depth. -/
theorem depthAfter?_group {inner : Text} (hinner : depthAfter? true 0 inner = some 0) (depth : Nat)
    (v : Text) : depthAfter? inside depth ('(' :: (inner ++ ')' :: v)) = depthAfter? inside depth v := by
  have hclose : depthAfter? inside (depth + 1) (')' :: v) = depthAfter? inside depth v := by
    rw [depthAfter?, if_neg (by decide), if_pos rfl, if_neg (by omega), Nat.add_sub_cancel]
  have hwithin : depthAfter? inside (0 + (depth + 1)) inner = some (0 + (depth + 1)) :=
    depthAfter?_add hinner (Nat.succ_pos depth)
  rw [Nat.zero_add] at hwithin
  rw [depthAfter?, if_pos rfl, depthAfter?_append, hwithin, Option.bind_some, hclose]

theorem depthAfter?_of_forall (h : ∀ c ∈ u, c ≠ '(' ∧ c ≠ ')' ∧ c ≠ ',') (depth : Nat) :
    depthAfter? inside depth u = some depth := by
  induction u with
  | nil => rfl
  | cons c u ih =>
    obtain ⟨⟨hopen, hclose, hseparator⟩, hu⟩ := List.forall_mem_cons.mp h
    rw [depthAfter?, if_neg hopen, if_neg hclose, if_neg (fun h => hseparator h.1), ih hu]

/-- Outside all parentheses there is no separator. -/
theorem not_mem_of_depthAfter? {depth : Nat} (h : depthAfter? false 0 u = some depth)
    (hopen : '(' ∉ u) : ',' ∉ u := by
  induction u with
  | nil => exact List.not_mem_nil
  | cons c u ih =>
    rw [List.mem_cons, not_or] at hopen ⊢
    rw [depthAfter?, if_neg (Ne.symm hopen.1)] at h
    split at h
    · cases h
    · split at h
      · cases h
      · next hseparator => exact ⟨fun heq => hseparator ⟨heq.symm, rfl, rfl⟩, ih h hopen.2⟩

/-- The text up to a matching close parenthesis closes what it opens. -/
theorem depthAfter?_of_matchClose? {depth : Nat} {text inner rest : Text}
    (h : matchClose? ['('] [')'] depth 0 text = some (inner, rest)) :
    text = inner ++ ')' :: rest ∧ depthAfter? true depth inner = some 0 := by
  induction text generalizing depth inner with
  | nil => simp [matchClose?] at h
  | cons c text ih =>
    have hnext {depth' : Nat}
        (h : (matchClose? ['('] [')'] depth' 0 text).map (fun p => (c :: p.1, p.2)) =
          some (inner, rest)) :
        ∃ inner', inner = c :: inner' ∧ text = inner' ++ ')' :: rest ∧
          depthAfter? true depth' inner' = some 0 := by
      obtain ⟨⟨inner', rest'⟩, hmatch, heq⟩ := Option.map_eq_some_iff.mp h
      obtain ⟨rfl, rfl⟩ := Prod.mk.inj heq
      exact ⟨inner', rfl, ih hmatch⟩
    rw [matchClose?] at h
    split at h
    · next hopen =>
      obtain rfl : '(' = c := by simpa using hopen
      obtain ⟨inner, rfl, rfl, hinner⟩ := hnext h
      exact ⟨rfl, by rwa [depthAfter?, if_pos rfl]⟩
    · next hopen =>
      have hopen' : c ≠ '(' := by
        rintro rfl
        exact hopen rfl
      split at h
      · next rest' hclose =>
        obtain ⟨rfl, rfl⟩ : c = ')' ∧ text = rest' := by
          simpa using after?_eq_some_iff.mp hclose
        split at h
        · next hzero =>
          obtain ⟨rfl, rfl⟩ := Prod.mk.inj (Option.some.inj h)
          exact ⟨rfl, by rw [hzero]; rfl⟩
        · next hpos =>
          obtain ⟨inner, rfl, rfl, hinner⟩ := hnext h
          exact ⟨rfl, by rwa [depthAfter?, if_neg (by decide), if_pos rfl, if_neg hpos]⟩
      · next hclose =>
        have hclose' : c ≠ ')' := by
          rintro rfl
          simp [after?] at hclose
        obtain ⟨inner, rfl, rfl, hinner⟩ := hnext h
        exact ⟨rfl, by rwa [depthAfter?, if_neg hopen', if_neg hclose', if_neg (by simp)]⟩

/-- The parts of a text that closes what it opens do so too, and no separator stands outside their
parentheses. -/
theorem exists_of_splitTop {depth : Nat} {text : Text} (h : depthAfter? true depth text = some 0) :
    ∃ part parts, splitTop ['('] [')'] [','] depth 0 true text = part :: parts ∧
      depthAfter? false depth part = some 0 ∧ ∀ p ∈ parts, depthAfter? false 0 p = some 0 := by
  induction text generalizing depth with
  | nil => exact ⟨[], [], rfl, h, by simp⟩
  | cons c text ih =>
    rw [depthAfter?] at h
    rw [splitTop]
    split at h
    · next hopen =>
      subst hopen
      obtain ⟨part, parts, hsplit, hpart, hparts⟩ := ih h
      rw [if_pos (by simp), List.length_singleton, Nat.sub_self, hsplit]
      exact ⟨'(' :: part, parts, rfl, hpart, hparts⟩
    · next hopen =>
      rw [if_neg (by simpa using Ne.symm hopen)]
      split at h
      · next hclose =>
        subst hclose
        split at h
        · cases h
        · next hpos =>
          obtain ⟨part, parts, hsplit, hpart, hparts⟩ := ih h
          rw [if_pos (by simp), List.length_singleton, Nat.sub_self, hsplit]
          refine ⟨')' :: part, parts, rfl, ?_, hparts⟩
          rwa [depthAfter?, if_neg (by decide), if_pos rfl, if_neg hpos]
      · next hclose =>
        rw [if_neg (by simpa using Ne.symm hclose)]
        obtain ⟨part, parts, hsplit, hpart, hparts⟩ := ih (by simpa using h)
        by_cases hseparator : c = ',' ∧ depth = 0
        · obtain ⟨rfl, rfl⟩ := hseparator
          rw [if_pos (by simp), List.length_singleton, Nat.sub_self, splitTop_keep,
            hsplit]
          exact ⟨[], part :: parts, rfl, rfl, List.forall_mem_cons.mpr ⟨hpart, hparts⟩⟩
        · have hinside : ¬(depth = 0 ∧ startsWith [','] (c :: text) = true) := by
            rintro ⟨hzero, hstarts⟩
            exact hseparator ⟨Eq.symm (by simpa using hstarts), hzero⟩
          rw [if_neg hinside, hsplit]
          refine ⟨c :: part, parts, rfl, ?_, hparts⟩
          rwa [depthAfter?, if_neg hopen, if_neg hclose, if_neg fun h => hseparator ⟨h.1, h.2.1⟩]

end Depth

/-- Parts that a text is split into make it up again. -/
theorem intercalate_splitTop (depth : Nat) (text : Text) :
    [','].intercalate (splitTop ['('] [')'] [','] depth 0 true text) = text ∧
      splitTop ['('] [')'] [','] depth 0 true text ≠ [] := by
  have hcons (c : Char) {parts : List Text} (hne : parts ≠ []) :
      [','].intercalate (parts.modifyHead (c :: ·)) = c :: [','].intercalate parts ∧
        parts.modifyHead (c :: ·) ≠ [] := by
    cases parts with
    | nil => exact absurd rfl hne
    | cons part parts => cases parts <;> simp [List.intercalate]
  induction text generalizing depth with
  | nil => simp [splitTop, List.intercalate]
  | cons c text ih =>
    have hnext (depth : Nat) := hcons c (ih depth).2
    rw [splitTop]
    simp only [List.length_singleton, Nat.sub_self, splitTop_keep]
    split
    · exact ⟨(hnext _).1.trans (by rw [(ih _).1]), (hnext _).2⟩
    · split
      · exact ⟨(hnext _).1.trans (by rw [(ih _).1]), (hnext _).2⟩
      · split
        · next hseparator =>
          obtain rfl : ',' = c := by simpa using hseparator.2
          obtain ⟨hrest, hne⟩ := ih 0
          obtain ⟨part, parts, hsplit⟩ := List.exists_cons_of_ne_nil hne
          rw [hsplit] at hrest ⊢
          exact ⟨by rw [List.intercalate_cons_cons, hrest]; rfl, by simp⟩
        · exact ⟨(hnext _).1.trans (by rw [(ih _).1]), (hnext _).2⟩

end Text

end Formula
