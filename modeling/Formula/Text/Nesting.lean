import Formula.Text.Basic

/-!
# Nesting

Open and close tokens nest. This module finds the close token that matches an open token, and
splits a text at the separators that stand outside any parentheses.

## Main definitions

* `Text.matchClose?`: the text up to the matching close token, and what follows it.
* `Text.splitTop`: the parts between separators outside any parentheses.

## Main results

* `Text.length_of_matchClose?`, `Text.length_le_of_mem_splitTop`: the parts are no longer than the
  text.
-/

namespace Formula.Text

/-- The text up to the close token that matches an open token just passed, and what follows it.
The first number counts the open tokens inside, the second the characters still covered by the
token just passed. -/
def matchClose? (opening closing : Text) : Nat → Nat → Text → Option (Text × Text)
  | _, _, [] => none
  | depth, skip + 1, c :: text =>
    (matchClose? opening closing depth skip text).map fun (inner, rest) => (c :: inner, rest)
  | depth, 0, c :: text =>
    if startsWith opening (c :: text) then
      (matchClose? opening closing (depth + 1) (opening.length - 1) text).map
        fun (inner, rest) => (c :: inner, rest)
    else match after? closing (c :: text) with
      | some rest =>
        if depth = 0 then some ([], rest)
        else
          (matchClose? opening closing (depth - 1) (closing.length - 1) text).map
            fun (inner, rest) => (c :: inner, rest)
      | none =>
        (matchClose? opening closing depth 0 text).map fun (inner, rest) => (c :: inner, rest)

/-- The parts of a text between separators outside any parentheses. The first number counts the
open tokens, the second the characters still covered by the token just passed, which are dropped
if it was a separator. -/
def splitTop (opening closing separator : Text) : Nat → Nat → (keep : Bool) → Text → List Text
  | _, _, _, [] => [[]]
  | depth, skip + 1, keep, c :: text =>
    let parts := splitTop opening closing separator depth skip keep text
    if keep then parts.modifyHead (c :: ·) else parts
  | depth, 0, _, c :: text =>
    if startsWith opening (c :: text) then
      (splitTop opening closing separator (depth + 1) (opening.length - 1) true text).modifyHead
        (c :: ·)
    else if startsWith closing (c :: text) then
      (splitTop opening closing separator (depth - 1) (closing.length - 1) true text).modifyHead
        (c :: ·)
    else if depth = 0 ∧ startsWith separator (c :: text) then
      [] :: splitTop opening closing separator 0 (separator.length - 1) false text
    else (splitTop opening closing separator depth 0 true text).modifyHead (c :: ·)

theorem length_le_of_mem_modifyHead_cons {c : Char} {parts : List Text} {n : Nat}
    (hparts : ∀ part ∈ parts, part.length ≤ n) :
    ∀ part ∈ parts.modifyHead (c :: ·), part.length ≤ n + 1 := by
  cases parts with
  | nil => simp
  | cons p ps =>
    simp only [List.modifyHead_cons, List.mem_cons, forall_eq_or_imp, List.length_cons] at *
    exact ⟨by omega, fun q hq => Nat.le_succ_of_le (hparts.2 q hq)⟩

theorem length_le_of_mem_splitTop {opening closing separator : Text} {depth skip : Nat}
    {keep : Bool} {text : Text} :
    ∀ part ∈ splitTop opening closing separator depth skip keep text,
      part.length ≤ text.length := by
  induction text generalizing depth skip keep with
  | nil => simp [splitTop]
  | cons c text ih =>
    have weaker : ∀ {parts : List Text}, (∀ p ∈ parts, p.length ≤ text.length) →
        ∀ p ∈ parts, p.length ≤ (c :: text).length :=
      fun h p hp => Nat.le_succ_of_le (h p hp)
    cases skip with
    | succ skip =>
      rw [splitTop]
      split
      · exact length_le_of_mem_modifyHead_cons ih
      · exact weaker ih
    | zero =>
      rw [splitTop]
      split
      · exact length_le_of_mem_modifyHead_cons ih
      · split
        · exact length_le_of_mem_modifyHead_cons ih
        · split
          · intro part hpart
            rcases List.mem_cons.1 hpart with rfl | hpart
            · simp
            · exact weaker ih part hpart
          · exact length_le_of_mem_modifyHead_cons ih

theorem length_of_matchClose? {opening closing : Text} {depth skip : Nat}
    {text inner rest : Text}
    (h : matchClose? opening closing depth skip text = some (inner, rest)) :
    inner.length ≤ text.length ∧ rest.length ≤ text.length := by
  induction text generalizing depth skip inner with
  | nil => simp [matchClose?] at h
  | cons c text ih =>
    have step : ∀ {depth skip : Nat},
        (matchClose? opening closing depth skip text).map
          (fun (inner, rest) => (c :: inner, rest)) = some (inner, rest) →
        inner.length ≤ (c :: text).length ∧ rest.length ≤ (c :: text).length := by
      intro depth skip h
      simp only [Option.map_eq_some_iff, Prod.exists, Prod.mk.injEq] at h
      obtain ⟨i, r, hi, rfl, rfl⟩ := h
      have := ih hi
      simp only [List.length_cons]
      omega
    cases skip with
    | succ skip =>
      rw [matchClose?] at h
      exact step h
    | zero =>
      rw [matchClose?] at h
      split at h
      · exact step h
      · split at h
        · next r hr =>
          split at h
          · simp only [Option.some.injEq, Prod.mk.injEq] at h
            obtain ⟨rfl, rfl⟩ := h
            have := congrArg List.length (after?_eq_some_iff.1 hr)
            simp only [List.length_append] at this
            simp only [List.length_nil]
            omega
          · exact step h
        · exact step h

end Formula.Text
