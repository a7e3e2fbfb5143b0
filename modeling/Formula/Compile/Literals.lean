import Formula.Compile.Context
import Formula.Plugin.Basic
import Formula.Text.ByteOffset

/-!
# Taking literals out of a text

Every extractor has a pass over the text. What it finds is replaced by a name and not looked at
again in the same pass. White space is dropped once the strings are taken out.

An extractor may answer anything. A literal that is empty, lies before the place reached or does
not fall between characters ends the pass; an invalid place is stepped over, by at least one byte.
So every answer brings the pass nearer to the end of the text. Only the largest machine word cannot
be stepped over: there the count overflows, and the compilation is aborted.

## Main definitions

* `Context.placeBehind?`: the place behind an invalid one.
* `Context.pass`: the pass of one extractor.
* `Context.extractLiterals`: all passes.
* `Context.Counted`: a scan whose invalid places can all be stepped over.
-/

namespace Formula.Context

/-- Number of bytes of the character at a byte offset, or one where no character starts. -/
def stepAt (text : Text) (offset : Nat) : Nat :=
  match Text.splitAtByte? offset text with
  | some (_, c :: _) => c.utf8Size
  | _ => 1

theorem stepAt_pos (text : Text) (offset : Nat) : 0 < stepAt text offset := by
  unfold stepAt
  split
  · exact Char.utf8Size_pos _
  · exact Nat.one_pos

/-- The place behind what stands at a place, which is counted in machine words. A text has fewer
bytes than there are words, so the count overflows behind its end only. -/
def placeBehind? (text : Text) (place : Nat) : Option Nat :=
  if place ≤ Text.byteLength text ∨ place < largestWord then some (place + stepAt text place)
  else none

theorem lt_of_placeBehind? {text : Text} {place next : Nat}
    (h : placeBehind? text place = some next) : place < next := by
  have := stepAt_pos text place
  rw [placeBehind?] at h
  split at h
  · obtain rfl := Option.some.inj h
    omega
  · cases h

/-- The pass of one extractor over a text, from a byte offset on. The answers may depend on how
many scans were made before. -/
def pass (scan : Nat → Text → Nat → Extraction) (count : Nat) (text : Text) (offset : Nat)
    (ctx : Context) : Text × Context :=
  if _ : offset ≤ Text.byteLength text then
    match scan count text offset with
    | .exhausted => (text, ctx)
    | .invalid place =>
      match h : placeBehind? text (max place offset) with
      | none => (text, { ctx with overrun := true })
      | some next => pass scan (count + 1) text next ctx
    | .found first last value =>
      if _ : offset ≤ first ∧ first < last then
        match h : Text.slice? first last text with
        | none => (text, ctx)
        | some (before, literal, rest) =>
          have := Text.eq_append_of_slice? h
          let named := ctx.intern value literal
          pass scan (count + 1) (before ++ named.1 ++ rest) (first + Text.byteLength named.1)
            named.2
      else (text, ctx)
  else (text, ctx)
termination_by Text.byteLength text + 1 - offset
decreasing_by
  · have := lt_of_placeBehind? h
    omega
  · obtain ⟨rfl, hb, hm, _⟩ := this
    simp only [Text.byteLength_append] at *
    omega

/-- Every invalid place that a scan answers can be stepped over: it lies in the text, or below the
largest machine word. -/
class Counted (scan : Nat → Text → Nat → Extraction) : Prop where
  place : ∀ {count : Nat} {text : Text} {offset place : Nat},
    scan count text offset = .invalid place → place ≤ Text.byteLength text ∨ place < largestWord

/-- A scan that answers no invalid place. -/
theorem Counted.of_ne {scan : Nat → Text → Nat → Extraction}
    (h : ∀ count text offset place, scan count text offset ≠ .invalid place) : Counted scan :=
  ⟨fun hscan => absurd hscan (h _ _ _ _)⟩

theorem Counted.placeBehind? {scan : Nat → Text → Nat → Extraction} [Counted scan] {count : Nat}
    {text : Text} {offset place : Nat} (hle : offset ≤ Text.byteLength text)
    (hscan : scan count text offset = .invalid place) :
    placeBehind? text (max place offset) =
      some (max place offset + stepAt text (max place offset)) := by
  refine if_pos ?_
  rcases Nat.le_total place offset with h | h
  · rw [Nat.max_eq_right h]
    exact .inl hle
  · rw [Nat.max_eq_left h]
    exact Counted.place hscan

/-- An invalid place is stepped over. -/
theorem pass_of_invalid {scan : Nat → Text → Nat → Extraction} [Counted scan] {count : Nat}
    {text : Text} {offset place : Nat} (hle : offset ≤ Text.byteLength text)
    (hscan : scan count text offset = .invalid place) (ctx : Context) :
    pass scan count text offset ctx =
      pass scan (count + 1) text (max place offset + stepAt text (max place offset)) ctx := by
  have hbehind := Counted.placeBehind? hle hscan
  rw [pass, dif_pos hle, hscan]
  dsimp only
  split
  · next hnone =>
    rw [hbehind] at hnone
    cases hnone
  · next hsome =>
    obtain rfl := Option.some.inj (hbehind.symm.trans hsome)
    rfl

/-- Drops white space, and keeps the text as it was with the strings taken out. -/
def stripBlanks (text : Text) (ctx : Context) : Text × Context :=
  (Text.withoutBlanks text, { ctx with unquoted := text })

/-- The passes of extractors in turn. White space is dropped before the first one that comes after
the strings, or at the end; `stripped` tells whether it has been. -/
def passes (d : Definition) : List Extractor → (stripped : Bool) → Text → Context → Text × Context
  | [], stripped, text, ctx => if stripped then (text, ctx) else stripBlanks text ctx
  | e :: rest, stripped, text, ctx =>
    let strips := !stripped && 0 < e.level.rank
    let (text, ctx) := if strips then stripBlanks text ctx else (text, ctx)
    let (text, ctx) := pass (e.scan d) 0 text 0 { ctx with cancelled := ctx.cancelled || e.cancels }
    passes d rest (stripped || strips) text ctx

/-- Takes the literals out of the source. -/
def extractLiterals (d : Definition) (registry : Registry) (ctx : Context) : Text × Context :=
  passes d registry.extractors false ctx.source ctx

end Formula.Context
