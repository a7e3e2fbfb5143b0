import Mathlib.Data.Bool.Basic
import Formula.Proofs.Text.Occurrences

/-!
# The words of a text

A word is a longest run of characters that names are made of. A text is its words with other
characters around and between them, so a name stands alone in a text exactly where it is one of its
words, and it is found first where the word occurs first. The places at which names are found are
therefore in the order of the words.

## Main definitions

* `Text.IsolatedBy`: no character of names stands next to what is between two texts.
* `Text.words`: the words of a text, from left to right.

## Main results

* `Text.words_isolated`, `Text.exists_of_words_eq`: the words around a word.
* `Text.exists_of_firstWord?`, `Text.firstWord?_le`: a name is found where it first stands alone.
* `Text.firstWord?_lt`: names are found in the order in which they first occur as words.
* `Text.contains_eq_any_words`: a name occurs in a text where it occurs in one of its words.
* `Text.pairwise_eraseDups`: an order of first occurrences is the order without repetitions.
-/

namespace Formula.Text

/-- No character of names stands next to what is between two texts. -/
structure IsolatedBy (before rest : Text) : Prop where
  left : ∀ c ∈ before.getLast?, isIdentifierChar c = false
  right : ∀ c ∈ rest.head?, isIdentifierChar c = false

/-- The words of a text: its longest runs of characters of names. -/
def words (text : Text) : List Text :=
  (text.splitOnP fun c => !isIdentifierChar c).filter (· ≠ [])

/-! ### Words around a word -/

@[simp]
theorem words_nil : words [] = [] := rfl

theorem words_append_cons {c : Char} (h : isIdentifierChar c = false) (a b : Text) :
    words (a ++ c :: b) = words a ++ words b := by
  rw [words, List.splitOnP_append_cons a b (by simp [h]), List.filter_append]
  rfl

theorem words_cons {c : Char} (h : isIdentifierChar c = false) (b : Text) :
    words (c :: b) = words b :=
  words_append_cons h [] b

theorem words_of_name {x : Text} (hne : x ≠ []) (hx : ∀ c ∈ x, isIdentifierChar c = true) :
    words x = [x] := by
  rw [words, List.splitOnP_eq_singleton fun c hc => by simp [hx c hc]]
  simp [hne]

theorem words_intercalate (parts : List Text) :
    words ([','].intercalate parts) = parts.flatMap words := by
  induction parts with
  | nil => rfl
  | cons part parts ih =>
    cases parts with
    | nil => simp [List.intercalate]
    | cons next parts =>
      rw [List.intercalate_cons_cons, List.append_assoc, List.singleton_append,
        words_append_cons (by decide), ih]
      rfl

/-- A name that stands alone is a word. -/
theorem words_isolated {before x rest : Text} (hne : x ≠ [])
    (hx : ∀ c ∈ x, isIdentifierChar c = true) (h : IsolatedBy before rest) :
    words (before ++ x ++ rest) = words before ++ x :: words rest := by
  have hright : words (x ++ rest) = x :: words rest := by
    cases rest with
    | nil => rw [List.append_nil, words_of_name hne hx, words_nil]
    | cons d rest =>
      have hd : isIdentifierChar d = false := h.right d rfl
      rw [words_append_cons hd, words_of_name hne hx, words_cons hd, List.singleton_append]
  rw [List.append_assoc]
  obtain rfl | ⟨before, c, rfl⟩ := List.eq_nil_or_concat before
  · exact hright
  · have hc : isIdentifierChar c = false := h.left c (by simp)
    rw [List.concat_eq_append, List.append_assoc, List.singleton_append, words_append_cons hc,
      words_append_cons hc, hright, words_nil, List.append_nil]

theorem IsolatedBy.append_cons {before rest : Text} (h : IsolatedBy before rest) {c : Char}
    (hc : isIdentifierChar c = false) (a : Text) : IsolatedBy (a ++ c :: before) rest := by
  refine ⟨fun d hd => ?_, h.right⟩
  cases before with
  | nil =>
    obtain rfl : c = d := by simpa using hd
    exact hc
  | cons e before => exact h.left d (by simpa [List.getLast?_cons_cons] using hd)

/-- A word stands alone, with the other words around it. -/
theorem exists_of_words_eq {text x : Text} {u v : List Text} (h : words text = u ++ x :: v) :
    ∃ before rest, text = before ++ x ++ rest ∧ IsolatedBy before rest ∧ words before = u ∧
      words rest = v := by
  -- the text is a run of characters of names, which may be empty, and a shorter text after it
  induction hlen : text.length using Nat.strongRecOn generalizing text u with
  | _ n ih =>
    have hrun : ∀ c ∈ text.takeWhile isIdentifierChar, isIdentifierChar c = true :=
      List.all_eq_true.mp List.all_takeWhile
    have hsplit := (List.takeWhile_append_dropWhile (p := isIdentifierChar) (l := text)).symm
    generalize text.takeWhile isIdentifierChar = run at hrun hsplit
    by_cases hfirst : run ≠ [] ∧ u = []
    · obtain ⟨hne, rfl⟩ := hfirst
      have hnext : ∀ c ∈ (text.dropWhile isIdentifierChar).head?, isIdentifierChar c = false :=
        fun c hc => by
          have := List.head?_dropWhile_not isIdentifierChar text
          rw [Option.mem_def.mp hc] at this
          simpa using this
      rw [hsplit, ← List.nil_append run, words_isolated hne hrun ⟨by simp, hnext⟩] at h
      obtain ⟨rfl, rfl⟩ := List.cons.inj h
      exact ⟨[], _, hsplit, ⟨by simp, hnext⟩, rfl, rfl⟩
    cases htail : text.dropWhile isIdentifierChar with
    | nil =>
      rw [htail, List.append_nil] at hsplit
      subst hsplit
      by_cases hne : text = []
      · simp [hne] at h
      · rw [words_of_name hne hrun] at h
        cases u with
        | nil => exact absurd ⟨hne, rfl⟩ hfirst
        | cons w u => simp at h
    | cons d tail =>
      have hd : isIdentifierChar d = false := by
        have := List.head?_dropWhile_not isIdentifierChar text
        rw [htail] at this
        simpa using this
      rw [htail] at hsplit
      subst hsplit
      rw [words_append_cons hd] at h
      -- the word is in the part after the run
      obtain ⟨u, rfl, hwords⟩ : ∃ u', u = words run ++ u' ∧ words tail = u' ++ x :: v := by
        by_cases hne : run = []
        · subst hne
          exact ⟨u, rfl, h⟩
        · rw [words_of_name hne hrun] at h ⊢
          cases u with
          | nil => exact absurd ⟨hne, rfl⟩ hfirst
          | cons w u =>
            obtain ⟨rfl, hwords⟩ := List.cons.inj h
            exact ⟨u, rfl, hwords⟩
      obtain ⟨before, rest, rfl, hisolated, rfl, hrest⟩ := ih tail.length (by
        rw [← hlen, List.length_append, List.length_cons]
        omega) hwords rfl
      exact ⟨run ++ d :: before, rest, by simp, hisolated.append_cons hd run,
        words_append_cons hd run before, hrest⟩

theorem exists_of_mem_words {text x : Text} (h : x ∈ words text) :
    ∃ before rest, text = before ++ x ++ rest ∧ IsolatedBy before rest := by
  obtain ⟨u, v, huv⟩ := List.append_of_mem h
  obtain ⟨before, rest, heq, hisolated, -⟩ := exists_of_words_eq huv
  exact ⟨before, rest, heq, hisolated⟩

/-! ### Places of words -/

theorem exists_of_firstWord? {x text : Text} {n : Nat} (h : firstWord? x text = some n) :
    ∃ before rest, text = before ++ x ++ rest ∧ before.length = n ∧ IsolatedBy before rest := by
  rw [firstWord?, Option.map_eq_some_iff] at h
  obtain ⟨⟨before, rest⟩, hfind, rfl⟩ := h
  have halone := List.find?_some hfind
  simp only [Bool.and_eq_true, Bool.not_eq_true'] at halone
  refine ⟨before, rest, eq_append_of_mem_cuts (List.mem_of_find?_eq_some hfind), rfl, ?_, ?_⟩
  · intro c hc
    rw [Option.mem_def] at hc
    simpa [hc] using halone.1
  · intro c hc
    rw [Option.mem_def] at hc
    simpa [hc] using halone.2

/-- Occurrences are listed from left to right. -/
theorem pairwise_cuts (token text : Text) :
    (cuts token text).Pairwise fun a b => a.1.length < b.1.length := by
  have hlong (skip : Nat) (passed text : Text) :
      ∀ a ∈ cutsFrom token skip passed text, passed.length ≤ a.1.length := by
    induction text generalizing skip passed with
    | nil => simp [cutsFrom]
    | cons c text ih =>
      have hnext (skip : Nat) (a : Text × Text) (ha : a ∈ cutsFrom token skip (c :: passed) text) :
          passed.length ≤ a.1.length :=
        Nat.le_of_succ_le (ih skip (c :: passed) a ha)
      cases skip with
      | succ skip =>
        rw [cutsFrom]
        exact hnext skip
      | zero =>
        rw [cutsFrom]
        split
        · refine List.forall_mem_cons.mpr ⟨by simp, hnext _⟩
        · exact hnext 0
  have hfrom (skip : Nat) (passed text : Text) :
      (cutsFrom token skip passed text).Pairwise fun a b => a.1.length < b.1.length := by
    induction text generalizing skip passed with
    | nil => exact List.Pairwise.nil
    | cons c text ih =>
      cases skip with
      | succ skip =>
        rw [cutsFrom]
        exact ih skip (c :: passed)
      | zero =>
        rw [cutsFrom]
        split
        · refine List.pairwise_cons.mpr ⟨fun a ha => ?_, ih _ _⟩
          simpa [Nat.succ_le_iff] using hlong _ (c :: passed) text a ha
        · exact ih 0 (c :: passed)
  exact hfrom 0 [] text

/-- A name is found no later than where it stands alone. -/
theorem firstWord?_le {before x rest : Text} (hne : x ≠ [])
    (hx : ∀ c ∈ x, isIdentifierChar c = true) (h : IsolatedBy before rest) :
    ∃ n ≤ before.length, firstWord? x (before ++ x ++ rest) = some n := by
  obtain ⟨n, hn⟩ := Option.isSome_iff_exists.mp (isSome_firstWord? hne hx h.left h.right)
  refine ⟨n, ?_, hn⟩
  rw [firstWord?, Option.map_eq_some_iff] at hn
  obtain ⟨⟨before', rest'⟩, hfind, rfl⟩ := hn
  have hmem : (before, rest) ∈ cuts x (before ++ x ++ rest) :=
    mem_cuts_of_isolated hne fun c hc hin => by simpa [hx c hin] using h.left c hc
  have hsorted := pairwise_cuts x (before ++ x ++ rest)
  obtain ⟨-, earlier, later, hcuts, hearlier⟩ := List.find?_eq_some_iff_append.mp hfind
  rw [hcuts] at hmem hsorted
  rcases List.mem_append.mp hmem with hmem | hmem
  · -- the search would have stopped here
    have hany {o : Option Char} (h : ∀ c ∈ o, isIdentifierChar c = false) :
        o.any isIdentifierChar = false := by
      cases o with
      | none => rfl
      | some c => exact h c rfl
    have := hearlier _ hmem
    simp [hany h.left, hany h.right] at this
  · rcases List.mem_cons.mp hmem with heq | hmem
    · exact Nat.le_of_eq (congrArg List.length (Prod.mk.inj heq).1).symm
    · exact Nat.le_of_lt ((List.pairwise_cons.mp (List.pairwise_append.mp hsorted).2.1).1 _ hmem)

/-- Two names at the front of one text are the same if both are words. -/
theorem eq_of_append_eq {x y r s : Text} (hx : ∀ c ∈ x, isIdentifierChar c = true)
    (hy : ∀ c ∈ y, isIdentifierChar c = true) (hr : ∀ c ∈ r.head?, isIdentifierChar c = false)
    (hs : ∀ c ∈ s.head?, isIdentifierChar c = false) (h : x ++ r = y ++ s) : x = y := by
  have htake {z t : Text} (hz : ∀ c ∈ z, isIdentifierChar c = true)
      (ht : ∀ c ∈ t.head?, isIdentifierChar c = false) :
      (z ++ t).takeWhile isIdentifierChar = z := by
    rw [List.takeWhile_append_of_pos hz]
    cases t with
    | nil => simp
    | cons c t => simp [ht c rfl]
  rw [← htake hx hr, h, htake hy hs]

theorem eq_of_firstWord?_eq {x y text : Text} {n : Nat}
    (hx : ∀ c ∈ x, isIdentifierChar c = true) (hy : ∀ c ∈ y, isIdentifierChar c = true)
    (hxn : firstWord? x text = some n) (hyn : firstWord? y text = some n) : x = y := by
  obtain ⟨before, rest, rfl, rfl, hisolated⟩ := exists_of_firstWord? hxn
  obtain ⟨before', rest', heq, hlen, hisolated'⟩ := exists_of_firstWord? hyn
  rw [List.append_assoc, List.append_assoc] at heq
  exact eq_of_append_eq hx hy hisolated.right hisolated'.right (List.append_inj heq hlen.symm).2

/-- A name that is not among the words up to another one is found after it. -/
theorem firstWord?_lt {text x y : Text} {u v : List Text} {m n : Nat}
    (hx : ∀ c ∈ x, isIdentifierChar c = true) (hxne : x ≠ [])
    (hy : ∀ c ∈ y, isIdentifierChar c = true) (hyne : y ≠ []) (h : words text = u ++ x :: v)
    (hyu : y ∉ u) (hyx : y ≠ x) (hxm : firstWord? x text = some m)
    (hyn : firstWord? y text = some n) : m < n := by
  obtain ⟨before, rest, rfl, hisolated, rfl, -⟩ := exists_of_words_eq h
  obtain ⟨m', hle, hm'⟩ := firstWord?_le hxne hx hisolated
  obtain rfl := Option.some.inj (hxm.symm.trans hm')
  obtain ⟨before', rest', heq, rfl, hisolated'⟩ := exists_of_firstWord? hyn
  by_contra hnot
  rw [List.append_assoc, List.append_assoc] at heq
  -- what precedes `y` is the front of what precedes `x`
  rcases List.append_eq_append_iff.mp heq with ⟨middle, hbefore', hmiddle⟩ | ⟨middle, rfl, hmiddle⟩
  · have hnil : middle = [] := by
      have := congrArg List.length hbefore'
      rw [List.length_append] at this
      exact List.length_eq_zero_iff.mp (by omega)
    subst hnil
    rw [List.nil_append] at hmiddle
    exact hyx (eq_of_append_eq hx hy hisolated.right hisolated'.right hmiddle).symm
  · rcases List.append_eq_append_iff.mp hmiddle with ⟨tail, rfl, rfl⟩ | ⟨tail, rfl, hrest⟩
    · refine hyu ?_
      rw [← List.append_assoc, words_isolated hyne hy ⟨hisolated'.left, fun c hc => ?_⟩]
      · simp
      · exact hisolated'.right c (by simp [Option.mem_def.mp hc])
    · obtain rfl | ⟨middle, c, rfl⟩ := List.eq_nil_or_concat middle
      · exact hyx (eq_of_append_eq hx hy hisolated.right hisolated'.right hrest).symm
      · -- `y` would reach into the character before `x`
        have hword : isIdentifierChar c = true := hy c (by simp)
        rw [hisolated.left c (by simp)] at hword
        cases hword

/-! ### First occurrences -/

/-- An order that relates every element to the later ones that did not occur before it is the order
of the list without repetitions. -/
theorem pairwise_eraseDups {α : Type} [BEq α] [LawfulBEq α] {r : α → α → Prop} {l : List α}
    (h : ∀ u x v, l = u ++ x :: v → ∀ y ∈ v, y ∉ u → y ≠ x → r x y) :
    l.eraseDups.Pairwise r := by
  induction hlen : l.length using Nat.strongRecOn generalizing l with
  | _ n ih =>
    cases l with
    | nil => exact List.Pairwise.nil
    | cons a l =>
      rw [List.eraseDups_cons]
      refine List.pairwise_cons.mpr ⟨fun y hy => ?_, ih _ ?_ ?_ rfl⟩
      · rw [List.mem_eraseDups, List.mem_filter] at hy
        exact h [] a l rfl y hy.1 List.not_mem_nil (by simpa using hy.2)
      · rw [← hlen]
        exact Nat.lt_succ_of_le (List.length_filter_le ..)
      · intro u x v huv y hy hyu hyx
        obtain ⟨l₁, l₂, rfl, rfl, hl₂⟩ := List.filter_eq_append_iff.mp huv
        obtain ⟨l₃, l₄, rfl, hl₃, -, rfl⟩ := List.filter_eq_cons_iff.mp hl₂
        obtain ⟨hy₄, hya⟩ := List.mem_filter.mp hy
        refine h (a :: (l₁ ++ l₃)) x l₄ (by simp) y hy₄ (fun hmem => ?_) hyx
        rcases List.mem_cons.mp hmem with rfl | hmem
        · simp at hya
        · rcases List.mem_append.mp hmem with hmem | hmem
          · exact hyu (List.mem_filter.mpr ⟨hmem, hya⟩)
          · exact hl₃ y hmem hya

/-! ### Identifiers as words -/

theorem isIdentifierChar_of_isIdentifier {name : Text} (h : isIdentifier name = true) :
    name ≠ [] ∧ ∀ c ∈ name, isIdentifierChar c = true := by
  cases name with
  | nil => cases h
  | cons c name =>
    obtain ⟨hfirst, hrest⟩ := Bool.and_eq_true_iff.mp h
    refine ⟨List.cons_ne_nil _ _, List.forall_mem_cons.mpr ⟨?_, List.all_eq_true.mp hrest⟩⟩
    rcases Bool.or_eq_true_iff.mp hfirst with halphabetic | hunderscore
    · simp [isIdentifierChar, isAlphanumeric, halphabetic]
    · simp [isIdentifierChar, hunderscore]

/-- An identifier that is found as a whole word is a word. -/
theorem mem_words_of_firstWord? {name text : Text} (hname : isIdentifier name = true) {place : Nat}
    (h : firstWord? name text = some place) : name ∈ words text := by
  obtain ⟨before, rest, rfl, -, hisolated⟩ := exists_of_firstWord? h
  obtain ⟨hne, hchars⟩ := isIdentifierChar_of_isIdentifier hname
  rw [words_isolated hne hchars hisolated]
  simp

/-- An identifier that is a word is found as a whole word. -/
theorem exists_firstWord?_of_mem_words {name text : Text} (hname : isIdentifier name = true)
    (h : name ∈ words text) : ∃ place, firstWord? name text = some place := by
  obtain ⟨hne, hchars⟩ := isIdentifierChar_of_isIdentifier hname
  obtain ⟨before, rest, rfl, hisolated⟩ := exists_of_mem_words h
  obtain ⟨place, -, hplace⟩ := firstWord?_le hne hchars hisolated
  exact ⟨place, hplace⟩

/-! ### Names within words -/

/-- An occurrence does not reach over a character that the token does not have. -/
theorem contains_append_cons {token : Text} {c : Char} (hc : c ∉ token) (a b : Text) :
    contains token (a ++ c :: b) = (contains token a || contains token b) := by
  rw [Bool.eq_iff_iff, Bool.or_eq_true, contains_iff, contains_iff, contains_iff]
  constructor
  · rintro ⟨before, rest, h⟩
    rcases List.append_eq_append_iff.mp (h.trans (List.append_assoc ..)) with
      ⟨u, rfl, hu⟩ | ⟨u, rfl, hu⟩
    · -- the occurrence starts at the character or after it
      cases u with
      | nil =>
        cases token with
        | nil => exact .inr ⟨[], b, rfl⟩
        | cons d token => exact absurd (List.cons.inj hu).1 fun h => hc (h ▸ List.mem_cons_self ..)
      | cons d u => exact .inr ⟨u, rest, by simpa using (List.cons.inj hu).2⟩
    · -- it starts before the character, and so it ends before it
      rcases List.append_eq_append_iff.mp hu with ⟨v, hv, -⟩ | ⟨v, hv, hrest⟩
      · exact .inl ⟨before, v, by rw [hv, List.append_assoc]⟩
      · cases v with
        | nil => exact .inl ⟨before, [], by simp [hv]⟩
        | cons d v =>
          obtain ⟨rfl, -⟩ := List.cons.inj hrest
          exact absurd (hv ▸ List.mem_append_right u (List.mem_cons_self ..)) hc
  · rintro (⟨before, rest, rfl⟩ | ⟨before, rest, rfl⟩)
    · exact ⟨before, rest ++ c :: b, by simp⟩
    · exact ⟨a ++ c :: before, rest, by simp⟩

/-- A name occurs in a text where it occurs in one of its words. -/
theorem contains_eq_any_words {name : Text} (hne : name ≠ [])
    (hname : ∀ c ∈ name, isIdentifierChar c = true) (text : Text) :
    contains name text = (words text).any (contains name) := by
  induction hlen : text.length using Nat.strongRecOn generalizing text with
  | _ n ih =>
    by_cases hword : ∀ c ∈ text, isIdentifierChar c = true
    · by_cases htext : text = []
      · rw [htext, words_nil, List.any_nil]
        exact contains_eq_false (List.getLast_mem hne) (List.not_mem_nil)
      · rw [words_of_name htext hword, List.any_cons, List.any_nil, Bool.or_false]
    · push Not at hword
      obtain ⟨c, hmem, hc⟩ := hword
      have hc := Bool.eq_false_of_not_eq_true hc
      obtain ⟨a, b, rfl⟩ := List.append_of_mem hmem
      have hin : c ∉ name := fun h => by
        rw [hname c h] at hc
        cases hc
      simp only [List.length_append, List.length_cons] at hlen
      rw [contains_append_cons hin, words_append_cons hc, List.any_append,
        ih a.length (by omega) a rfl, ih b.length (by omega) b rfl]

/-! ### White space -/

theorem isIdentifierChar_of_isBlank {c : Char} (h : isBlank c = true) :
    isIdentifierChar c = false := by
  rw [isIdentifierChar, Bool.or_eq_false_iff]
  refine ⟨isWordChar_of_isBlank h, beq_false_of_ne ?_⟩
  rintro rfl
  cases h

theorem isBlank_of_isIdentifierChar {c : Char} (h : isIdentifierChar c = true) :
    isBlank c = false :=
  Bool.eq_false_of_not_eq_true fun hblank => by
    rw [isIdentifierChar_of_isBlank hblank] at h
    cases h

theorem withoutBlanks_append (u v : Text) :
    withoutBlanks (u ++ v) = withoutBlanks u ++ withoutBlanks v :=
  List.filter_append ..

theorem withoutBlanks_eq_nil {u : Text} : withoutBlanks u = [] ↔ ∀ c ∈ u, isBlank c = true := by
  simp [withoutBlanks, List.filter_eq_nil_iff]

theorem withoutBlanks_word {word : Text} (h : ∀ c ∈ word, isIdentifierChar c = true) :
    withoutBlanks word = word := by
  rw [withoutBlanks, List.filter_eq_self]
  intro c hc
  rw [isBlank_of_isIdentifierChar (h c hc)]
  rfl

/-- White space has no words. -/
theorem words_blanks {blanks : Text} (h : ∀ c ∈ blanks, isBlank c = true) : words blanks = [] := by
  induction blanks with
  | nil => rfl
  | cons c blanks ih =>
    obtain ⟨hc, hblanks⟩ := List.forall_mem_cons.mp h
    rw [words_cons (isIdentifierChar_of_isBlank hc), ih hblanks]

end Formula.Text
