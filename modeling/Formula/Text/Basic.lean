/-!
# Searching and cutting text

Source text is taken apart as a list of characters. This module holds the searches that this is
made of: finding the first or the last occurrence of a token, listing all
occurrences from left to right without overlap, and splitting and replacing at them.

## Main definitions

* `Text.after?`: what follows a token at the front of a text.
* `Text.cut?`, `Text.cutLast?`: the text before and after the first, or the last, occurrence.
* `Text.cuts`, `Text.places`: the text before and after every occurrence, and where they are.
* `Text.splitAll`, `Text.replaceAll`: the pieces between occurrences, and their replacement.

## Main results

* `Text.after?_eq_some_iff`, `Text.eq_append_of_cut?`, `Text.eq_append_of_cutLast?`,
  `Text.eq_append_of_mem_cuts`: a cut loses nothing.
-/

namespace Formula

/-- Text, one character after another. -/
abbrev Text := List Char

namespace Text

/-- What follows `token` when `text` starts with it. -/
def after? : (token text : Text) → Option Text
  | [], text => some text
  | _ :: _, [] => none
  | p :: token, c :: text => if p = c then after? token text else none

/-- Whether `text` starts with `token`. -/
def startsWith (token text : Text) : Bool :=
  (after? token text).isSome

@[simp]
theorem after?_nil (text : Text) : after? [] text = some text := by
  cases text <;> rfl

@[simp]
theorem after?_cons_nil (p : Char) (token : Text) : after? (p :: token) [] = none := rfl

@[simp]
theorem after?_cons_cons (p c : Char) (token text : Text) :
    after? (p :: token) (c :: text) = if p = c then after? token text else none := rfl

@[simp]
theorem startsWith_nil (text : Text) : startsWith [] text = true := by
  rw [startsWith, after?_nil, Option.isSome_some]

@[simp]
theorem startsWith_cons_nil (p : Char) (token : Text) : startsWith (p :: token) [] = false := rfl

@[simp]
theorem startsWith_cons_cons (p c : Char) (token text : Text) :
    startsWith (p :: token) (c :: text) = (p == c && startsWith token text) := by
  rw [startsWith, after?_cons_cons]
  by_cases h : p = c
  · rw [if_pos h, h, beq_self_eq_true, Bool.true_and, startsWith]
  · rw [if_neg h, beq_false_of_ne h, Bool.false_and, Option.isSome_none]

/-- The text before and after the first occurrence of `token`. -/
def cut? (token : Text) : Text → Option (Text × Text)
  | [] => (after? token []).map fun rest => ([], rest)
  | c :: text =>
    match after? token (c :: text) with
    | some rest => some ([], rest)
    | none => (cut? token text).map fun (before, rest) => (c :: before, rest)

/-- The text before and after the last occurrence of `token`. -/
def cutLast? (token : Text) : Text → Option (Text × Text)
  | [] => (after? token []).map fun rest => ([], rest)
  | c :: text =>
    match cutLast? token text with
    | some (before, rest) => some (c :: before, rest)
    | none => (after? token (c :: text)).map fun rest => ([], rest)

/-- Whether `token` occurs in `text`. -/
def contains (token : Text) : Text → Bool
  | [] => startsWith token []
  | c :: text => startsWith token (c :: text) || contains token text

/-- What precedes `token` when `text` ends with it. -/
def before? (token text : Text) : Option Text :=
  (after? token.reverse text.reverse).map List.reverse

/-- The text before and after every occurrence of `token`, from left to right without overlap.
The first argument counts the characters still covered by the last occurrence, the second holds
what was passed, last character first. -/
def cutsFrom (token : Text) : Nat → Text → Text → List (Text × Text)
  | _, _, [] => []
  | skip + 1, passed, c :: text => cutsFrom token skip (c :: passed) text
  | 0, passed, c :: text =>
    match after? token (c :: text) with
    | some rest => (passed.reverse, rest) :: cutsFrom token (token.length - 1) (c :: passed) text
    | none => cutsFrom token 0 (c :: passed) text

/-- The text before and after every occurrence of `token`, from left to right without overlap. -/
def cuts (token text : Text) : List (Text × Text) :=
  cutsFrom token 0 [] text

/-- The places where `token` occurs, from left to right without overlap. The first argument counts
the characters still covered by the last occurrence, the second the characters passed. -/
def placesFrom (token : Text) : Nat → Nat → Text → List Nat
  | _, _, [] => []
  | skip + 1, place, _ :: text => placesFrom token skip (place + 1) text
  | 0, place, c :: text =>
    if startsWith token (c :: text) then
      place :: placesFrom token (token.length - 1) (place + 1) text
    else placesFrom token 0 (place + 1) text

/-- The places where `token` occurs, from left to right without overlap. -/
def places (token text : Text) : List Nat :=
  placesFrom token 0 0 text

/-- The pieces between the occurrences of `token`, after `skip` characters that belong to the
occurrence just passed. -/
def splitFrom (token : Text) : Nat → Text → List Text
  | _, [] => [[]]
  | skip + 1, _ :: text => splitFrom token skip text
  | 0, c :: text =>
    if startsWith token (c :: text) then [] :: splitFrom token (token.length - 1) text
    else (splitFrom token 0 text).modifyHead (c :: ·)

/-- The pieces of `text` between the occurrences of `token`. -/
def splitAll (token text : Text) : List Text :=
  splitFrom token 0 text

/-- Replaces every occurrence of `token` by `replacement`. -/
def replaceAll (token replacement text : Text) : Text :=
  replacement.intercalate (splitAll token text)

/-- Drops characters satisfying `p` at both ends. -/
def trimBoth (p : Char → Bool) (text : Text) : Text :=
  ((text.dropWhile p).reverse.dropWhile p).reverse

/-- Equality up to the case of ASCII letters. -/
def sameIgnoringCase (a b : Text) : Bool :=
  a.map Char.toLower == b.map Char.toLower

/-- The decimal digits of a number, filled up with zeros on the left to at least `width`. -/
def padded (width n : Nat) : Text :=
  let digits := Nat.toDigits 10 n
  List.replicate (width - digits.length) '0' ++ digits

theorem after?_eq_some_iff {token text rest : Text} :
    after? token text = some rest ↔ text = token ++ rest := by
  fun_induction after? token text with
  | case1 text => simp
  | case2 => simp
  | case3 token c text ih => simp [ih]
  | case4 p token c text h =>
    simp only [reduceCtorEq, List.cons_append, List.cons.injEq, false_iff, not_and]
    exact fun hc => absurd hc.symm h

theorem eq_append_of_cut? {token text before rest : Text}
    (h : cut? token text = some (before, rest)) : text = before ++ token ++ rest := by
  induction text generalizing before with
  | nil =>
    simp only [cut?, Option.map_eq_some_iff, Prod.mk.injEq] at h
    obtain ⟨r, hr, rfl, rfl⟩ := h
    simpa using after?_eq_some_iff.1 hr
  | cons c text ih =>
    rw [cut?] at h
    split at h
    · next r hr =>
      simp only [Option.some.injEq, Prod.mk.injEq] at h
      obtain ⟨rfl, rfl⟩ := h
      simpa using after?_eq_some_iff.1 hr
    · simp only [Option.map_eq_some_iff, Prod.mk.injEq, Prod.exists] at h
      obtain ⟨b, r, hb, rfl, rfl⟩ := h
      simpa using ih hb

theorem eq_append_of_cutLast? {token text before rest : Text}
    (h : cutLast? token text = some (before, rest)) : text = before ++ token ++ rest := by
  induction text generalizing before with
  | nil =>
    simp only [cutLast?, Option.map_eq_some_iff, Prod.mk.injEq] at h
    obtain ⟨r, hr, rfl, rfl⟩ := h
    simpa using after?_eq_some_iff.1 hr
  | cons c text ih =>
    rw [cutLast?] at h
    split at h
    · next b r hb =>
      simp only [Option.some.injEq, Prod.mk.injEq] at h
      obtain ⟨rfl, rfl⟩ := h
      simpa using ih hb
    · simp only [Option.map_eq_some_iff, Prod.mk.injEq] at h
      obtain ⟨r, hr, rfl, rfl⟩ := h
      simpa using after?_eq_some_iff.1 hr

theorem eq_append_of_mem_cutsFrom {token : Text} {skip : Nat} {passed text before rest : Text}
    (h : (before, rest) ∈ cutsFrom token skip passed text) :
    passed.reverse ++ text = before ++ token ++ rest := by
  induction text generalizing skip passed with
  | nil => simp [cutsFrom] at h
  | cons c text ih =>
    cases skip with
    | succ skip =>
      rw [cutsFrom] at h
      simpa using ih h
    | zero =>
      rw [cutsFrom] at h
      split at h
      · next r hr =>
        rcases List.mem_cons.1 h with h | h
        · simp only [Prod.mk.injEq] at h
          obtain ⟨rfl, rfl⟩ := h
          simp [after?_eq_some_iff.1 hr]
        · simpa using ih h
      · simpa using ih h

theorem eq_append_of_mem_cuts {token text before rest : Text}
    (h : (before, rest) ∈ cuts token text) : text = before ++ token ++ rest := by
  simpa using eq_append_of_mem_cutsFrom h

end Text

end Formula
