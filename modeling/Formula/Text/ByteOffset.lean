import Formula.Text.Basic

/-!
# Byte offsets

Extractors speak of places in a text by byte offsets of its UTF-8 form. An offset cuts a text only
where it falls between two characters or at an end.

## Main definitions

* `Text.byteLength`: number of bytes.
* `Text.splitAtByte?`, `Text.slice?`: cuts at byte offsets.

## Main results

* `Text.eq_append_of_splitAtByte?`, `Text.eq_append_of_slice?`: a cut loses nothing, and its parts
  have the lengths asked for.
-/

namespace Formula.Text

/-- Number of bytes of the UTF-8 form. -/
def byteLength : Text → Nat
  | [] => 0
  | c :: text => c.utf8Size + byteLength text

@[simp]
theorem byteLength_nil : byteLength [] = 0 := rfl

@[simp]
theorem byteLength_cons (c : Char) (text : Text) :
    byteLength (c :: text) = c.utf8Size + byteLength text := rfl

@[simp]
theorem byteLength_append (a b : Text) :
    byteLength (a ++ b) = byteLength a + byteLength b := by
  induction a with
  | nil => simp
  | cons c a ih => simp [ih, Nat.add_assoc]

/-- Cuts `text` at a byte offset, if the offset falls between two characters or at an end. -/
def splitAtByte? : Nat → Text → Option (Text × Text)
  | 0, text => some ([], text)
  | _ + 1, [] => none
  | n + 1, c :: text =>
    if c.utf8Size ≤ n + 1 then
      (splitAtByte? (n + 1 - c.utf8Size) text).map fun (before, rest) => (c :: before, rest)
    else none

/-- The text before, between and after two byte offsets, if both fall between characters and
the first is not past the second. -/
def slice? (first last : Nat) (text : Text) : Option (Text × Text × Text) := do
  let (before, rest) ← splitAtByte? first text
  if first ≤ last then
    let (middle, rest) ← splitAtByte? (last - first) rest
    return (before, middle, rest)
  else none

theorem eq_append_of_splitAtByte? {n : Nat} {text before rest : Text}
    (h : splitAtByte? n text = some (before, rest)) :
    text = before ++ rest ∧ byteLength before = n := by
  induction text generalizing n before with
  | nil =>
    cases n with
    | zero => simp_all [splitAtByte?]
    | succ n => simp [splitAtByte?] at h
  | cons c text ih =>
    cases n with
    | zero => simp_all [splitAtByte?]
    | succ n =>
      rw [splitAtByte?] at h
      split at h
      · next hc =>
        simp only [Option.map_eq_some_iff, Prod.exists, Prod.mk.injEq] at h
        obtain ⟨b, r, hb, rfl, rfl⟩ := h
        obtain ⟨rfl, hlen⟩ := ih hb
        refine ⟨rfl, ?_⟩
        rw [byteLength_cons]
        omega
      · simp at h

theorem eq_append_of_slice? {first last : Nat} {text before middle rest : Text}
    (h : slice? first last text = some (before, middle, rest)) :
    text = before ++ middle ++ rest ∧ byteLength before = first
      ∧ byteLength middle = last - first ∧ first ≤ last := by
  simp only [slice?, Option.bind_eq_bind, Option.bind_eq_some_iff, Prod.exists] at h
  obtain ⟨b, r, hb, h⟩ := h
  split at h
  · next hle =>
    simp only [Option.bind_eq_some_iff, Prod.exists, Option.pure_def, Option.some.injEq,
      Prod.mk.injEq] at h
    obtain ⟨m, r', hm, rfl, rfl, rfl⟩ := h
    obtain ⟨rfl, hfirst⟩ := eq_append_of_splitAtByte? hb
    obtain ⟨rfl, hmiddle⟩ := eq_append_of_splitAtByte? hm
    exact ⟨by simp, hfirst, hmiddle, hle⟩
  · simp at h

end Formula.Text
