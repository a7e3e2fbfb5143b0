import Formula.Proofs.Compile.Preparation
import Formula.Proofs.Source.Loops
import Formula.Proofs.Source.Strings

/-!
# What an extractor can do to a text

A pass over a text asks an extractor again and again, and replaces what it finds by a name. The
extractor may answer anything: a place outside of the text or inside of a character, a literal that is
empty, ends before it starts or lies where a name has been put already, and something else each time it
is asked. The pass is safe from all of that. It ends after at most as many scans as the text has bytes,
and one more; what it replaces lies between characters, after all names that it has put into the text;
and what stands before the place that it has come to stays as it is.

There is one exception. Places are counted in machine words, and nothing lies behind the largest one.
If that word is answered as an invalid place, a build that checks sums aborts, and one that does not
goes on at the beginning of the text, where it may meet the names that it has put there, and need not
end. So an extractor has to be `Context.Counted`.

The loop is written here as the single rounds that it consists of. A round in which the text is cut at
a place where it cannot be cut would break the pass; it never comes to that.

## Main definitions

* `Scanner`, `Scanner.round`: where a pass stands, and what one round of it does.
* `Placeholder`: a name that has been put into the text, and its place.
* `Scanner.Comes`: how far a pass comes, and the names it puts into the text on the way.
* `Scanner.Robust`: no answer does harm.
* `Scanner.runaway`: an extractor that does.

## Main results

* `Scanner.exists_ends`: a pass ends, with the text and the tables of `Context.pass`.
* `Scanner.Comes.stands`, `Scanner.Comes.pairwise`: names are put one after the other, and stay.
* `Scanner.Comes.encoded_take`: the text before the place that has been reached does not change.
* `Scanner.round_eq_overruns_iff`: the count overflows at the largest word, and nowhere else.
* `Context.extractLiterals_robust`: all of it, for all extractors that leave that word alone.
-/

namespace Formula

namespace Text

/-- The UTF-8 form. -/
def encoded (text : Text) : List UInt8 :=
  text.flatMap String.utf8EncodeChar

theorem encoded_append (a b : Text) : encoded (a ++ b) = encoded a ++ encoded b :=
  List.flatMap_append

theorem length_encoded (text : Text) : (encoded text).length = byteLength text := by
  induction text with
  | nil => rfl
  | cons c text ih =>
    rw [encoded, List.flatMap_cons, List.length_append, String.length_utf8EncodeChar, byteLength_cons,
      ← ih]
    rfl

/-- The text with something else between two byte offsets. There is none if the text cannot be cut at
them, which is so outside of it and inside of a character. -/
def replace? (first last : Nat) (name text : Text) : Option Text :=
  if first ≤ last then do
    let (before, _) ← splitAtByte? first text
    let (_, rest) ← splitAtByte? last text
    return before ++ name ++ rest
  else none

theorem replace?_of_slice? {first last : Nat} {text before literal rest : Text}
    (h : slice? first last text = some (before, literal, rest)) (name : Text) :
    replace? first last name text = some (before ++ name ++ rest) := by
  obtain ⟨rfl, rfl, hliteral, hle⟩ := eq_append_of_slice? h
  have hfirst : splitAtByte? (byteLength before) (before ++ literal ++ rest) =
      some (before, literal ++ rest) := by
    rw [List.append_assoc]
    exact splitAtByte?_append before (literal ++ rest)
  have hlast : splitAtByte? last (before ++ literal ++ rest) = some (before ++ literal, rest) := by
    have hlength : byteLength (before ++ literal) = last := by
      rw [byteLength_append, hliteral, Nat.add_sub_cancel' hle]
    rw [← hlength]
    exact splitAtByte?_append (before ++ literal) rest
  simp only [replace?, if_pos hle, hfirst, hlast, Option.bind_eq_bind, Option.bind_some,
    Option.pure_def]

/-- Of two beginnings of a text, one that has no more bytes is the beginning of the other. -/
theorem exists_append_of_byteLength_le {a a' b b' : Text} (h : a ++ a' = b ++ b')
    (hle : byteLength a ≤ byteLength b) : ∃ x, b = a ++ x := by
  rcases List.append_eq_append_iff.mp h with ⟨x, rfl, -⟩ | ⟨x, rfl, -⟩
  · exact ⟨x, rfl⟩
  · cases x with
    | nil => exact ⟨[], by simp⟩
    | cons c x =>
      rw [byteLength_append, byteLength_cons] at hle
      have := Char.utf8Size_pos c
      omega

end Text

open Text

/-- Where a pass over a text stands. -/
structure Scanner where
  /-- Number of scans made before. -/
  count : Nat := 0
  text : Text
  /-- The byte offset that the next scan starts from. -/
  offset : Nat := 0
  ctx : Context

/-- A name that has been put into a text, and the byte offset that it starts at. -/
structure Placeholder where
  name : Text
  first : Nat

namespace Placeholder

/-- The byte offset that the name ends at. -/
def last (p : Placeholder) : Nat :=
  p.first + byteLength p.name

/-- The name stands in the text, at its place. -/
def StandsIn (p : Placeholder) (text : Text) : Prop :=
  ∃ before rest, text = before ++ p.name ++ rest ∧ byteLength before = p.first

end Placeholder

/-- What a round of a pass does. -/
inductive Round where
  /-- The pass is over. -/
  | ends
  /-- The text is cut where it cannot be cut. -/
  | breaks
  /-- A place is counted that is no machine word. -/
  | overruns
  /-- The pass goes on, perhaps with another name in the text. -/
  | goesOn (next : Scanner) (placed : Option Placeholder)

namespace Scanner

/-- One round of a pass: a scan, and what is done about the answer. If sums are not `checked`, the
place behind the largest word is the beginning of the text. -/
def round (checked : Bool) (scan : Nat → Text → Nat → Extraction) (s : Scanner) : Round :=
  if s.offset ≤ byteLength s.text then
    match scan s.count s.text s.offset with
    | .exhausted => .ends
    | .invalid place =>
      match Context.placeBehind? s.text (max place s.offset) with
      | some next => .goesOn ⟨s.count + 1, s.text, next, s.ctx⟩ none
      | none =>
        if checked then .overruns
        else .goesOn ⟨s.count + 1, s.text, (max place s.offset + 1) % (largestWord + 1), s.ctx⟩ none
    | .found first last value =>
      match slice? first last s.text with
      | none => .ends
      | some (_, literal, _) =>
        if s.offset ≤ first ∧ first < last then
          let named := s.ctx.intern value literal
          match replace? first last named.1 s.text with
          | none => .breaks
          | some text =>
            .goesOn ⟨s.count + 1, text, first + byteLength named.1, named.2⟩ (some ⟨named.1, first⟩)
        else .ends
  else .ends

/-- A pass comes from one place to another, and puts names into the text on the way: those of the list,
in turn. -/
inductive Comes (checked : Bool) (scan : Nat → Text → Nat → Extraction) (s : Scanner) :
    Scanner → List Placeholder → Prop
  | here : Comes checked scan s s []
  | goesOn {t next : Scanner} {log : List Placeholder} {placed : Option Placeholder}
      (h : Comes checked scan s t log) (hround : t.round checked scan = .goesOn next placed) :
      Comes checked scan s next (log ++ placed.toList)

/-- Whatever the extractor answers, the pass does its work. -/
structure Robust (checked : Bool) (scan : Nat → Text → Nat → Extraction) (s : Scanner) : Prop where
  /-- The pass ends. -/
  ends : ∃ t log, s.Comes checked scan t log ∧ t.round checked scan = .ends ∧
    Context.pass scan s.count s.text s.offset s.ctx = (t.text, t.ctx)
  /-- There are no more scans than bytes, and one more. -/
  few : ∀ t log, s.Comes checked scan t log → t.count ≤ s.count + (byteLength s.text + 1)
  /-- The text is cut between characters only. -/
  safe : ∀ t log, s.Comes checked scan t log → t.round checked scan ≠ .breaks
  /-- No count overflows. -/
  counted : ∀ t log, s.Comes checked scan t log → t.round checked scan ≠ .overruns
  /-- The next scan starts in the text, behind its last byte or at a machine word. -/
  near : ∀ t log next placed, s.Comes checked scan t log →
    t.round checked scan = .goesOn next placed →
    next.offset ≤ max (byteLength next.text + 1) largestWord
  /-- A literal is replaced only after all names that have been put into the text. -/
  apart : ∀ t log, s.Comes checked scan t log → log.Pairwise fun p q => p.last ≤ q.first
  /-- No name is scanned or replaced. -/
  kept : ∀ t log, s.Comes checked scan t log → ∀ p ∈ log, p.last ≤ t.offset ∧ p.StandsIn t.text
  /-- What stands before the place of a scan does not change any more. -/
  settled : ∀ t log u log', s.Comes checked scan t log → t.Comes checked scan u log' →
    (encoded u.text).take t.offset = (encoded t.text).take t.offset

section

variable {checked : Bool} {scan : Nat → Text → Nat → Extraction} {s t u next : Scanner}
  {log log' : List Placeholder} {placed : Option Placeholder}

/-! ### A round -/

/-- The text is only cut where it can be cut. -/
theorem round_ne_breaks (checked : Bool) (scan : Nat → Text → Nat → Extraction) (s : Scanner) :
    s.round checked scan ≠ .breaks := by
  rw [round]
  split
  · split
    · simp
    · split
      · simp
      · split <;> simp
    · split
      · simp
      · next hslice =>
        split
        · simp [replace?_of_slice? hslice]
        · simp
  · simp

/-- The count overflows when the largest word is answered as an invalid place, and else never. -/
theorem round_eq_overruns_iff :
    s.round checked scan = .overruns ↔
      checked = true ∧ s.offset ≤ byteLength s.text ∧
        ∃ place, scan s.count s.text s.offset = .invalid place ∧ byteLength s.text < place ∧
          largestWord ≤ place := by
  rw [round]
  by_cases hle : s.offset ≤ byteLength s.text
  · rw [if_pos hle]
    cases scan s.count s.text s.offset with
    | exhausted => simp
    | found first last value =>
      dsimp only
      split
      · simp
      · split
        · split <;> simp
        · simp
    | invalid place =>
      by_cases hplace : byteLength s.text < place ∧ largestWord ≤ place
      · have hmax : max place s.offset = place := Nat.max_eq_left (by omega)
        have hnone : Context.placeBehind? s.text place = none := if_neg (by omega)
        cases checked <;> simp [hmax, hnone, hle, hplace]
      · have hsome : Context.placeBehind? s.text (max place s.offset) =
            some (max place s.offset + Context.stepAt s.text (max place s.offset)) :=
          if_pos (by omega)
        simp [hsome, hplace]
  · rw [if_neg hle]
    simp [hle]

/-- A pass is over after a round, or goes on from where the round has come. If the count overflows, it
is aborted. -/
theorem pass_eq_of_round (scan : Nat → Text → Nat → Extraction) (s : Scanner) :
    Context.pass scan s.count s.text s.offset s.ctx =
      match s.round true scan with
      | .goesOn next _ => Context.pass scan next.count next.text next.offset next.ctx
      | .overruns => (s.text, { s.ctx with overrun := true })
      | _ => (s.text, s.ctx) := by
  rw [Context.pass, round]
  by_cases hle : s.offset ≤ byteLength s.text
  · rw [dif_pos hle, if_pos hle]
    cases scan s.count s.text s.offset with
    | exhausted => rfl
    | invalid place =>
      dsimp only
      split
      · next hnone => simp only [hnone, if_true]
      · next hsome => simp only [hsome]
    | found first last value =>
      by_cases hplace : s.offset ≤ first ∧ first < last
      · simp only [dif_pos hplace, if_pos hplace]
        split
        · next hslice => simp only [hslice]
        · next hslice => simp only [hslice, replace?_of_slice? hslice]
      · simp only [dif_neg hplace, if_neg hplace]
        cases slice? first last s.text <;> rfl
  · rw [dif_neg hle, if_neg hle]

variable [Context.Counted scan]

/-- What a round does that the pass goes on after: it passes over a place that is no literal, or puts
a name into the text for a literal that lies behind the place reached. -/
theorem goesOn_cases (h : s.round checked scan = .goesOn next placed) :
    s.offset ≤ byteLength s.text ∧
      ((∃ place, scan s.count s.text s.offset = .invalid place ∧ placed = none ∧
        next = ⟨s.count + 1, s.text,
          max place s.offset + Context.stepAt s.text (max place s.offset), s.ctx⟩) ∨
      ∃ last value before literal rest name ctx,
        scan s.count s.text s.offset = .found (byteLength before) last value ∧
        s.offset ≤ byteLength before ∧ 0 < byteLength literal ∧ s.text = before ++ literal ++ rest ∧
        s.ctx.intern value literal = (name, ctx) ∧ placed = some ⟨name, byteLength before⟩ ∧
        next = ⟨s.count + 1, before ++ name ++ rest, byteLength before + byteLength name, ctx⟩) := by
  rw [round] at h
  split at h
  · next hle =>
    refine ⟨hle, ?_⟩
    split at h
    · cases h
    · next place hscan =>
      rw [Context.Counted.placeBehind? hle hscan] at h
      obtain ⟨rfl, rfl⟩ := Round.goesOn.inj h
      exact .inl ⟨place, hscan, rfl, rfl⟩
    · next first last value hscan =>
      split at h
      · cases h
      · next before literal rest hslice =>
        obtain ⟨htext, rfl, hliteral, -⟩ := eq_append_of_slice? hslice
        split at h
        · next hplace =>
          simp only [replace?_of_slice? hslice] at h
          obtain ⟨rfl, rfl⟩ := Round.goesOn.inj h
          exact .inr ⟨last, value, before, literal, rest, _, _, hscan, hplace.1,
            by omega, htext, rfl, rfl, rfl⟩
        · cases h
  · cases h

/-- Without the largest word, no count overflows. -/
theorem round_ne_overruns (checked : Bool) (scan : Nat → Text → Nat → Extraction)
    [Context.Counted scan] (s : Scanner) : s.round checked scan ≠ .overruns := by
  intro h
  obtain ⟨-, -, place, hscan, hlt, hle⟩ := round_eq_overruns_iff.mp h
  rcases Context.Counted.place hscan with hplace | hplace <;> omega

/-- It does not matter then whether sums are checked. -/
theorem round_eq_checked (checked : Bool) (scan : Nat → Text → Nat → Extraction)
    [Context.Counted scan] (s : Scanner) : s.round checked scan = s.round true scan := by
  rw [round, round]
  split
  · next hle =>
    cases hscan : scan s.count s.text s.offset with
    | exhausted => rfl
    | invalid place => simp only [Context.Counted.placeBehind? hle hscan]
    | found first last value => rfl
  · rfl

/-- The bytes from the place reached on, and one more. -/
def remaining (s : Scanner) : Nat :=
  byteLength s.text + 1 - s.offset

/-- A round brings the pass nearer to the end of the text. -/
theorem remaining_lt (h : s.round checked scan = .goesOn next placed) :
    next.count = s.count + 1 ∧ next.remaining < s.remaining ∧ s.offset ≤ next.offset := by
  obtain ⟨hle, ⟨place, -, -, rfl⟩ | ⟨last, value, before, literal, rest, name, ctx, -, hplace, hpos,
    htext, -, -, rfl⟩⟩ := goesOn_cases h
  · have hstep := Context.stepAt_pos s.text (max place s.offset)
    have hreached : s.offset ≤ max place s.offset := le_max_right ..
    refine ⟨rfl, ?_, by dsimp only; omega⟩
    simp only [remaining]
    omega
  · refine ⟨rfl, ?_, by dsimp only; omega⟩
    simp only [remaining, htext, byteLength_append]
    omega

/-- The next scan starts in the text, behind its last byte or at a machine word. -/
theorem offset_le (h : s.round checked scan = .goesOn next placed) :
    next.offset ≤ max (byteLength next.text + 1) largestWord := by
  obtain ⟨hle, ⟨place, hscan, -, rfl⟩ | ⟨last, value, before, literal, rest, name, ctx, -, -, -, -, -, -,
    rfl⟩⟩ := goesOn_cases h
  · have hplace : place ≤ byteLength s.text ∨ place < largestWord := Context.Counted.place hscan
    have hstep : max place s.offset + Context.stepAt s.text (max place s.offset) ≤
        byteLength s.text ∨ Context.stepAt s.text (max place s.offset) = 1 := by
      rw [Context.stepAt]
      split
      · next before c rest hsplit =>
        obtain ⟨htext, hbefore⟩ := eq_append_of_splitAtByte? hsplit
        left
        rw [htext, byteLength_append, byteLength_cons, hbefore]
        omega
      · exact .inr rfl
    dsimp only
    omega
  · simp only [byteLength_append]
    omega

/-- A round leaves alone what stands before the place reached. -/
theorem encoded_take_of_round (h : s.round checked scan = .goesOn next placed) {n : Nat} (hn : n ≤ s.offset) :
    (encoded next.text).take n = (encoded s.text).take n := by
  obtain ⟨-, ⟨place, -, -, rfl⟩ | ⟨last, value, before, literal, rest, name, ctx, -, hplace, -, htext,
    -, -, rfl⟩⟩ := goesOn_cases h
  · rfl
  · have hlength : n ≤ (encoded before).length := by
      rw [length_encoded]
      exact hn.trans hplace
    rw [htext, List.append_assoc, List.append_assoc, encoded_append,
      List.take_append_of_le_length hlength, encoded_append, List.take_append_of_le_length hlength]

/-- A round leaves alone the names that stand before the place reached. -/
theorem standsIn_of_round (h : s.round checked scan = .goesOn next placed) {p : Placeholder}
    (hlast : p.last ≤ s.offset) (hp : p.StandsIn s.text) : p.StandsIn next.text := by
  obtain ⟨-, ⟨place, -, -, rfl⟩ | ⟨last, value, before, literal, rest, name, ctx, -, hplace, -, htext,
    -, -, rfl⟩⟩ := goesOn_cases h
  · exact hp
  · obtain ⟨head, tail, hsplit, hfirst⟩ := hp
    have hle : byteLength (head ++ p.name) ≤ byteLength before := by
      rw [byteLength_append, hfirst]
      exact hlast.trans hplace
    have hsame : (head ++ p.name) ++ tail = before ++ (literal ++ rest) := by
      rw [← hsplit, htext, List.append_assoc]
    obtain ⟨x, rfl⟩ := exists_append_of_byteLength_le hsame hle
    exact ⟨head, x ++ name ++ rest, by simp [List.append_assoc], hfirst⟩

/-- A name is put into the text at the place reached or later, and the next scan starts behind it. -/
theorem placed_of_round {p : Placeholder} (h : s.round checked scan = .goesOn next (some p)) :
    s.offset ≤ p.first ∧ p.last ≤ next.offset ∧ p.StandsIn next.text := by
  obtain ⟨-, ⟨place, -, hplaced, -⟩ | ⟨last, value, before, literal, rest, name, ctx, -, hplace, -, -,
    -, hplaced, rfl⟩⟩ := goesOn_cases h
  · cases hplaced
  · obtain rfl := Option.some.inj hplaced
    exact ⟨hplace, le_rfl, before, rest, rfl, rfl⟩

/-! ### A pass -/

namespace Comes

omit [Context.Counted scan] in
theorem trans (h : s.Comes checked scan t log) (h' : t.Comes checked scan u log') :
    s.Comes checked scan u (log ++ log') := by
  induction h' with
  | here => simpa using h
  | goesOn _ hround ih => exact List.append_assoc .. ▸ ih.goesOn hround

/-- Every scan brings the pass nearer to the end of the text. -/
theorem count_add_remaining_le (h : s.Comes checked scan t log) :
    t.count + t.remaining ≤ s.count + s.remaining := by
  induction h with
  | here => exact le_rfl
  | goesOn _ hround ih =>
    obtain ⟨hcount, hlt, -⟩ := remaining_lt hround
    omega

theorem offset_le (h : s.Comes checked scan t log) : s.offset ≤ t.offset := by
  induction h with
  | here => exact le_rfl
  | goesOn _ hround ih => exact ih.trans (remaining_lt hround).2.2

/-- What stands before the place reached does not change any more. -/
theorem encoded_take (h : s.Comes checked scan t log) :
    (encoded t.text).take s.offset = (encoded s.text).take s.offset := by
  induction h with
  | here => rfl
  | goesOn h hround ih => exact (encoded_take_of_round hround h.offset_le).trans ih

/-- The names that have been put into the text stand there, and the next scan starts behind them. -/
theorem stands (h : s.Comes checked scan t log) : ∀ p ∈ log, p.last ≤ t.offset ∧ p.StandsIn t.text := by
  induction h with
  | here => simp
  | @goesOn t next log placed _ hround ih =>
    intro p hp
    rcases List.mem_append.mp hp with hp | hp
    · obtain ⟨hlast, hstands⟩ := ih p hp
      exact ⟨hlast.trans (remaining_lt hround).2.2, standsIn_of_round hround hlast hstands⟩
    · obtain rfl := Option.mem_toList.mp hp
      exact (placed_of_round hround).2

/-- A name is put into the text behind all names that have been put there before. -/
theorem pairwise (h : s.Comes checked scan t log) : log.Pairwise fun p q => p.last ≤ q.first := by
  induction h with
  | here => exact .nil
  | @goesOn t next log placed h hround ih =>
    refine List.pairwise_append.mpr ⟨ih, ?_, fun p hp q hq => ?_⟩
    · cases placed <;> simp
    · obtain rfl := Option.mem_toList.mp hq
      exact (h.stands p hp).1.trans (placed_of_round hround).1

end Comes

/-- A pass ends, with the text and the tables that it is known to give. -/
theorem exists_ends (checked : Bool) (scan : Nat → Text → Nat → Extraction) [Context.Counted scan]
    (s : Scanner) :
    ∃ t log, s.Comes checked scan t log ∧ t.round checked scan = .ends ∧
      Context.pass scan s.count s.text s.offset s.ctx = (t.text, t.ctx) := by
  induction hbytes : s.remaining using Nat.strong_induction_on generalizing s with
  | _ bytes ih =>
    subst hbytes
    have hpass := pass_eq_of_round scan s
    rw [← round_eq_checked checked] at hpass
    cases hround : s.round checked scan with
    | ends => exact ⟨s, [], .here, hround, by rw [hpass, hround]⟩
    | breaks => exact absurd hround (round_ne_breaks checked scan s)
    | overruns => exact absurd hround (round_ne_overruns checked scan s)
    | goesOn next placed =>
      obtain ⟨t, log, hcomes, hends, hnext⟩ := ih _ (remaining_lt hround).2.1 next rfl
      have hfirst : s.Comes checked scan next ([] ++ placed.toList) := .goesOn .here hround
      exact ⟨t, _, hfirst.trans hcomes, hends, by rw [hpass, hround]; exact hnext⟩

/-- Whatever the extractor answers, the pass does its work. -/
theorem robust (checked : Bool) (scan : Nat → Text → Nat → Extraction) [Context.Counted scan]
    (s : Scanner) : s.Robust checked scan where
  ends := exists_ends checked scan s
  few t log h := by
    have hle := h.count_add_remaining_le
    simp only [remaining] at hle
    omega
  safe t _ _ := round_ne_breaks checked scan t
  counted t _ _ := round_ne_overruns checked scan t
  near _ _ _ _ _ h := offset_le h
  apart _ _ h := h.pairwise
  kept _ _ h := h.stands
  settled _ _ _ _ _ h := h.encoded_take

end

/-! ### The largest word -/

/-- An extractor that finds the first character, and then nothing but an invalid place that is the
largest word. -/
def runaway (count : Nat) (_text : Text) (_offset : Nat) : Extraction :=
  if count = 0 then .found 0 1 (.integer 1) else .invalid largestWord

/-- Where a pass over two letters stands after `n` scans, and from which offset it goes on. -/
def runaround (n offset : Nat) : Scanner where
  count := n
  text := "item0001b".toList
  offset := offset
  ctx := ((Context.start "ab".toList).intern (.integer 1) "a".toList).2

/-- The pass of that extractor is aborted; and it goes round for ever in a build that does not check
sums, where it always comes back to the name that it has put into the text. -/
theorem runaway_overruns :
    let s : Scanner := { text := "ab".toList, ctx := Context.start "ab".toList }
    let p : Placeholder := ⟨"item0001".toList, 0⟩
    (∃ t log, s.Comes true runaway t log ∧ t.round true runaway = .overruns) ∧
      ∀ n, s.Comes false runaway (runaround (n + 2) 0) [p] ∧ p.StandsIn (runaround (n + 2) 0).text := by
  intro s p
  have hfirst (checked : Bool) : s.round checked runaway = .goesOn (runaround 1 8) (some p) := by
    have hslice : slice? 0 1 "ab".toList = some ([], "a".toList, "b".toList) := by decide
    have hname : (Context.start "ab".toList).intern (.integer 1) "a".toList =
        ("item0001".toList, (runaround 1 8).ctx) := Prod.ext (by decide) rfl
    have hreplace : replace? 0 1 "item0001".toList "ab".toList = some "item0001b".toList := by decide
    have hscan : runaway s.count s.text s.offset = .found 0 1 (.integer 1) := rfl
    rw [round, if_pos (by decide), hscan]
    simp only [s, p, hslice, hname, hreplace, Nat.le_refl, Nat.zero_lt_one, and_self, if_true]
    rfl
  -- Behind the largest word the count starts again.
  have hback (n offset : Nat) (hle : offset ≤ 9) :
      (runaround (n + 1) offset).round false runaway = .goesOn (runaround (n + 2) 0) none := by
    have hmax : max largestWord offset = largestWord := Nat.max_eq_left (hle.trans (by decide))
    have hnone : Context.placeBehind? "item0001b".toList largestWord = none := by decide
    have hscan : runaway (n + 1) "item0001b".toList offset = .invalid largestWord := rfl
    have hin : offset ≤ byteLength "item0001b".toList := hle
    simp only [round, runaround, hin, hscan, hmax, hnone, Bool.false_eq_true, if_true, if_false,
      Nat.mod_self]
  have haborted : (runaround 1 8).round true runaway = .overruns := rfl
  refine ⟨⟨_, _, .goesOn .here (hfirst true), haborted⟩, fun n => ⟨?_, [], "b".toList, rfl, rfl⟩⟩
  induction n with
  | zero => exact .goesOn (.goesOn .here (hfirst false)) (hback 0 8 (by decide))
  | succ n ih => exact .goesOn ih (hback (n + 1) 0 (Nat.zero_le 9))

end Scanner

namespace Context

/-- Taking the literals out of a source ends, and no count overflows, whatever the extractors answer
but the largest word; and the pass of any of them, over any text, is safe from what it answers. -/
theorem extractLiterals_robust (d : Definition) (registry : Registry)
    (h : ∀ e ∈ registry.extractors, Counted (e.scan d)) (source : Text) :
    (start source).extractLiterals? d registry = some ((start source).extractLiterals d registry) ∧
      ((start source).extractLiterals d registry).2.overrun = false ∧
      ∀ e ∈ registry.extractors, ∀ checked text ctx,
        Scanner.Robust checked (e.scan d) { text, ctx } :=
  ⟨extractLiterals?_eq_some .., overrun_passes h .., fun e he checked _ _ =>
    have := h e he
    Scanner.robust checked (e.scan d) _⟩

/-- An extractor that finds the first character, then passes over a place far behind the end or inside
of a character, and then finds something that ends before it starts. -/
def erratic : Extractor where
  name := "erratic"
  level := .other
  scan _ count _ _ :=
    match count with
    | 0 => .found 0 1 (.integer 1)
    | 1 => .invalid 10
    | 2 => .found 12 3 (.integer 2)
    | _ => .invalid (2 ^ 63)

theorem extractLiterals_robust_erratic :
    (∀ e ∈ [erratic], Counted (e.scan Definition.default)) ∧
      ∀ e ∈ [erratic], ∀ checked text ctx,
        Scanner.Robust checked (e.scan Definition.default) { text, ctx } := by
  have hcounted : ∀ e ∈ [erratic], Counted (e.scan Definition.default) := by
    intro e he
    obtain rfl := List.mem_singleton.mp he
    refine ⟨fun {count text offset place} hscan => .inr ?_⟩
    match count with
    | 1 =>
      obtain rfl := Extraction.invalid.inj hscan
      decide
    | n + 3 =>
      obtain rfl := Extraction.invalid.inj hscan
      decide
  exact ⟨hcounted, (extractLiterals_robust Definition.default { extractors := [erratic] } hcounted
    "1ñé".toList).2.2⟩

end Context

end Formula
