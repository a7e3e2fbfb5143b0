import Formula.Proofs.Source.Alphabet
import Formula.Proofs.Source.Unfolding

/-!
# Hexadecimal numbers with an ampersand

The mark `&h` of a hexadecimal number starts with an operator. So a number that is left in a text could
be split at its own mark, and it would then be read as a name. The pass over the numbers leaves none
that stands alone: every place of the text is looked at, and the names that are put in bring no new
number. No later stage brings one either, for it puts names where something stood between operands.

## Main definitions

* `Source.Unhexed`: no hexadecimal number with an ampersand stands alone in a text.

## Main results

* `Source.unhexed_scanNumber`: the pass over the numbers leaves none.
* `Source.Unhexed.isolated`: a name in a gap brings none.
-/

namespace Formula

open Text

/-! ### Looking for numbers -/

namespace Extractor

/-- Whether a number has a value. -/
def hasValue (number : Text) : Bool :=
  ((Literal.binary? number).or (Literal.numeric? number)).isSome

/-- No number starts before the one that is found. -/
theorem takeNumber?_eq_none {u w : Text} (h : ∀ skipped number rest,
    findNumber? (u ++ w) = some (skipped, number, rest) → u.length < skipped.length) :
    takeNumber? w = none := by
  induction u with
  | nil =>
    cases w with
    | nil => rfl
    | cons c w =>
      refine Option.eq_none_iff_forall_not_mem.mpr fun found hfound => ?_
      obtain ⟨number, rest⟩ := found
      have hfound : takeNumber? (c :: w) = some (number, rest) := hfound
      exact absurd (h [] number rest (by rw [List.nil_append, findNumber?, hfound])) (Nat.lt_irrefl 0)
  | cons c u ih =>
    refine ih fun skipped number rest hfound => ?_
    rw [List.cons_append, findNumber?] at h
    split at h
    · exact absurd (h [] _ _ rfl) (Nat.not_lt_zero _)
    · exact Nat.lt_of_succ_lt_succ (h (c :: skipped) number rest (by rw [hfound]; rfl))

/-- A text is cut at the byte offset or right after it. -/
theorem exists_of_splitAtOrAfter {offset : Nat} {u w : Text} (h : offset ≤ byteLength u) :
    ∃ u', u = (splitAtOrAfter offset (u ++ w)).1 ++ u' ∧
      (splitAtOrAfter offset (u ++ w)).2 = u' ++ w := by
  induction u generalizing offset with
  | nil =>
    obtain rfl : offset = 0 := Nat.le_zero.mp h
    exact ⟨[], by simp [splitAtOrAfter], by simp [splitAtOrAfter]⟩
  | cons c u ih =>
    cases offset with
    | zero => exact ⟨c :: u, by simp [splitAtOrAfter], by simp [splitAtOrAfter]⟩
    | succ n =>
      rw [byteLength_cons] at h
      obtain ⟨u', hu, hrest⟩ := @ih (n + 1 - c.utf8Size) (by omega)
      refine ⟨u', ?_, ?_⟩
      · rw [List.cons_append, splitAtOrAfter, List.cons_append, ← hu]
      · rw [List.cons_append, splitAtOrAfter]
        exact hrest

theorem le_byteLength_splitAtOrAfter {offset : Nat} {text : Text} (h : offset ≤ byteLength text) :
    offset ≤ byteLength (splitAtOrAfter offset text).1 := by
  induction text generalizing offset with
  | nil =>
    obtain rfl : offset = 0 := Nat.le_zero.mp h
    exact Nat.zero_le _
  | cons c text ih =>
    cases offset with
    | zero => exact Nat.zero_le _
    | succ n =>
      rw [byteLength_cons] at h
      have := @ih (n + 1 - c.utf8Size) (by omega)
      rw [splitAtOrAfter, byteLength_cons]
      omega

theorem isIdentifierChar_of_isHexWord {w : Text} (h : isHexWord w = true) :
    ∀ c ∈ w, isIdentifierChar c = true := by
  cases w with
  | nil => cases h
  | cons x run =>
    simp only [isHexWord, Bool.and_eq_true, Bool.or_eq_true (x == 'h'), beq_iff_eq,
      List.all_eq_true] at h
    refine List.forall_mem_cons.mpr ⟨?_, fun c hc => isIdentifierChar_of_isHexDigit (h.2 c hc)⟩
    rcases h.1.1 with rfl | rfl <;> decide

/-- A hexadecimal number with an ampersand is read up to the end of the word. -/
theorem takeNumber?_hex {w v : Text} (hw : isHexWord w = true)
    (hv : ∀ c ∈ v.head?, isIdentifierChar c = false) :
    takeNumber? ('&' :: (w ++ v)) = some ('&' :: w, v) := by
  obtain ⟨x, run, rfl⟩ : ∃ x run, w = x :: run := by
    cases w with
    | nil => cases hw
    | cons x run => exact ⟨x, run, rfl⟩
  simp only [isHexWord, Bool.and_eq_true, Bool.or_eq_true (x == 'h'), beq_iff_eq, Bool.not_eq_true',
    List.isEmpty_eq_false_iff, List.all_eq_true] at hw
  obtain ⟨⟨hx, hne⟩, hrun⟩ := hw
  have hend : ∀ c ∈ v.head?,
      (c.isDigit || ('a' ≤ c && c ≤ 'f') || ('A' ≤ c && c ≤ 'F')) = false := fun c hc => by
    refine Bool.eq_false_of_not_eq_true fun hhex => ?_
    cases (hv c hc).symm.trans (isIdentifierChar_of_isHexDigit hhex)
  have hbinary : takeBinary? ('&' :: (x :: run ++ v)) = none := rfl
  have hhex : takeHex? ('&' :: (x :: run ++ v)) = some ('&' :: x :: run, v) := by
    rw [List.cons_append, takeHex?, if_pos (.inr ⟨rfl, hx⟩), takeRun?_append hne hrun hend]
    rfl
  rw [takeNumber?, hbinary, hhex]
  rfl

/-- A scan ends at the first number: it is found, or it touches a word or has no value. -/
theorem scanNumber_of_find {text before tail skipped number rest : Text} {offset : Nat}
    (hsplit : splitAtOrAfter offset text = (before, tail))
    (hfind : findNumber? tail = some (skipped, number, rest)) :
    (∃ value, scanNumber text offset = .found (byteLength (before ++ skipped))
        (byteLength (before ++ skipped) + byteLength number) value ∧ hasValue number = true) ∨
      scanNumber text offset = .invalid (byteLength (before ++ skipped)) ∧
        (IsolatedBy (before ++ skipped) rest → hasValue number = false) := by
  rw [scanNumber, hsplit]
  dsimp only
  rw [hfind]
  dsimp only
  rw [byteLength_append]
  split
  · next htouches =>
    refine .inr ⟨rfl, fun hisolated => ?_⟩
    rcases Bool.or_eq_true_iff.mp htouches with h | h
    · obtain ⟨c, hc, hchar⟩ := (Option.any_eq_true ..).mp h
      cases (hisolated.left c hc).symm.trans hchar
    · obtain ⟨c, hc, hchar⟩ := (Option.any_eq_true ..).mp h
      cases (hisolated.right c hc).symm.trans hchar
  · split
    · next hvalue => exact .inl ⟨_, rfl, by rw [hasValue, hvalue]; rfl⟩
    · next hnone => exact .inr ⟨rfl, fun _ => by rw [hasValue, hnone]; rfl⟩

/-- A number that is found has a value. -/
theorem hasValue_of_scanNumber {before number rest : Text} {offset : Nat} {value : Value}
    (h : scanNumber (before ++ number ++ rest) offset =
      .found (byteLength before) (byteLength before + byteLength number) value) :
    hasValue number = true := by
  cases hsplit : splitAtOrAfter offset (before ++ number ++ rest) with
  | mk passed tail =>
  have happend := splitAtOrAfter_append offset (before ++ number ++ rest)
  rw [hsplit] at happend
  cases hfind : findNumber? tail with
  | none =>
    rw [scanNumber, hsplit] at h
    dsimp only at h
    rw [hfind] at h
    cases h
  | some found =>
    obtain ⟨skipped, number', rest'⟩ := found
    obtain ⟨tail', rfl, hnumber⟩ := exists_of_findNumber? hfind
    obtain ⟨rfl, -⟩ := numeral_of_takeNumber? hnumber
    rcases scanNumber_of_find hsplit hfind with ⟨_, hscan, hvalue⟩ | ⟨hscan, -⟩
    · obtain ⟨hfirst, hlast, -⟩ := Extraction.found.inj (h.symm.trans hscan)
      rw [← List.append_assoc, List.append_assoc before] at happend
      obtain ⟨rfl, hparts⟩ := append_inj_of_byteLength happend hfirst.symm
      obtain ⟨rfl, -⟩ := append_inj_of_byteLength hparts
        (Nat.add_left_cancel hlast).symm
      exact hvalue
    · cases h.symm.trans hscan

/-- What a scan finds lies ahead. -/
theorem lt_of_scanNumber {text : Text} {offset first last : Nat} {value : Value}
    (hoffset : offset ≤ byteLength text) (h : scanNumber text offset = .found first last value) :
    offset ≤ first ∧ first < last := by
  cases hsplit : splitAtOrAfter offset text with
  | mk before tail =>
  have hbefore := le_byteLength_splitAtOrAfter hoffset
  rw [hsplit] at hbefore
  dsimp only at hbefore
  cases hfind : findNumber? tail with
  | none =>
    rw [scanNumber, hsplit] at h
    dsimp only at h
    rw [hfind] at h
    cases h
  | some found =>
    obtain ⟨skipped, number, rest⟩ := found
    obtain ⟨tail', -, hnumber⟩ := exists_of_findNumber? hfind
    obtain ⟨pre, word, rfl, hne, -⟩ := (numeral_of_takeNumber? hnumber).2.exists_word
    rcases scanNumber_of_find hsplit hfind with ⟨_, hscan, -⟩ | ⟨hscan, -⟩
    · obtain ⟨rfl, rfl, -⟩ := Extraction.found.inj (h.symm.trans hscan)
      obtain ⟨c, word, rfl⟩ := List.exists_cons_of_ne_nil hne
      have hsize := Char.utf8Size_pos c
      simp only [byteLength_append, byteLength_cons]
      omega
    · cases h.symm.trans hscan

end Extractor

namespace Source

/-- No hexadecimal number with an ampersand stands alone in a text, up to a byte offset. -/
def UnhexedBelow (offset : Nat) (text : Text) : Prop :=
  ∀ u w v, text = u ++ '&' :: (w ++ v) → byteLength u < offset → IsolatedBy u v →
    Extractor.isHexWord w = true → Extractor.hasValue ('&' :: w) = false

/-- No hexadecimal number with an ampersand stands alone in a text. -/
def Unhexed (text : Text) : Prop :=
  ∀ u w v, text = u ++ '&' :: (w ++ v) → IsolatedBy u v →
    Extractor.isHexWord w = true → Extractor.hasValue ('&' :: w) = false

theorem unhexed_iff {text : Text} : Unhexed text ↔ ∀ offset, UnhexedBelow offset text :=
  ⟨fun h _ u w v htext _ => h u w v htext,
    fun h u w v htext => h (byteLength u + 1) u w v htext (Nat.lt_succ_self _)⟩

section Append

variable {a b before name rest u w v : Text}

/-- A hexadecimal number in a text that is put together from two parts: it stands in one of them, or
only its ampersand stands in the first one. -/
theorem exists_of_hex_append (htext : a ++ b = u ++ '&' :: (w ++ v))
    (hapart : (∀ c ∈ a.getLast?, isIdentifierChar c = false) ∨
      ∀ c ∈ b.head?, isIdentifierChar c = false) (hisolated : IsolatedBy u v)
    (hw : Extractor.isHexWord w = true) :
    (∃ v', a = u ++ '&' :: (w ++ v') ∧ v = v' ++ b ∧ IsolatedBy u v') ∨
      (∃ u', u = a ++ u' ∧ b = u' ++ '&' :: (w ++ v) ∧ IsolatedBy u' v) ∨
        a = u ++ ['&'] ∧ b = w ++ v := by
  have hwchars := Extractor.isIdentifierChar_of_isHexWord hw
  rcases List.append_eq_append_iff.mp htext with ⟨u', rfl, rfl⟩ | ⟨x, rfl, hx⟩
  · exact .inr (.inl ⟨u', rfl, rfl, fun c hc => hisolated.left c (by simp [Option.mem_def.mp hc]),
      hisolated.right⟩)
  rcases x with _ | ⟨c, y⟩
  · exact .inr (.inl ⟨[], by simp, hx.symm, by simp, hisolated.right⟩)
  obtain ⟨rfl, hy⟩ : '&' = c ∧ w ++ v = y ++ b := List.cons.inj hx
  rcases List.append_eq_append_iff.mp hy with ⟨v', rfl, rfl⟩ | ⟨z, rfl, rfl⟩
  · exact .inl ⟨v', rfl, rfl, hisolated.left, fun c hc => hisolated.right c (by
      simp [List.head?_append, Option.mem_def.mp hc])⟩
  -- the word does not go on from the first part into the second one
  rcases List.eq_nil_or_concat y with rfl | ⟨y, c, rfl⟩
  · exact .inr (.inr ⟨rfl, rfl⟩)
  rw [List.concat_eq_append] at hapart hwchars
  rcases z with _ | ⟨d, z⟩
  · exact .inl ⟨[], by simp, rfl, hisolated.left, by simp⟩
  · rcases hapart with hapart | hapart
    · cases (hapart c (by simp [List.getLast?_cons])).symm.trans (hwchars c (by simp))
    · cases (hapart d (by simp)).symm.trans (hwchars d (by simp))

theorem head?_of_isHexWord (hw : Extractor.isHexWord w = true) :
    (w ++ v).head? = some 'h' ∨ (w ++ v).head? = some 'H' := by
  cases w with
  | nil => cases hw
  | cons x run =>
    simp only [Extractor.isHexWord, Bool.and_eq_true, Bool.or_eq_true (x == 'h'), beq_iff_eq] at hw
    simpa using hw.1.1

/-- A name in place of something that stands alone brings no hexadecimal number. -/
theorem exists_of_isolated (h : IsolatedBy before rest) (hname : ∃ n, name = Context.generatedName n)
    (htext : before ++ name ++ rest = u ++ '&' :: (w ++ v)) (hisolated : IsolatedBy u v)
    (hw : Extractor.isHexWord w = true) :
    (∃ v', before = u ++ '&' :: (w ++ v') ∧ v = v' ++ (name ++ rest) ∧ IsolatedBy u v') ∨
      ∃ u', u = before ++ (name ++ u') ∧ rest = u' ++ '&' :: (w ++ v) ∧ IsolatedBy u' v := by
  obtain ⟨n, rfl⟩ := hname
  have hampersand : '&' ∉ Context.generatedName n := fun hmem =>
    absurd ((generatedName_word n).2 _ hmem) (by decide)
  rw [List.append_assoc] at htext
  rcases exists_of_hex_append htext (.inl h.left) hisolated hw with
    hbefore | ⟨u', rfl, hrest, hisolated⟩ | ⟨-, hword⟩
  · exact .inl hbefore
  · rcases exists_of_hex_append hrest (.inr h.right) hisolated hw with
      ⟨v', hname, -⟩ | ⟨u', rfl, hparts⟩ | ⟨hname, -⟩
    · exact absurd (by simp [hname]) hampersand
    · exact .inr ⟨u', rfl, hparts⟩
    · exact absurd (by simp [hname]) hampersand
  · rcases head?_of_isHexWord (v := v) hw with hhead | hhead <;>
      cases (congrArg List.head? hword).trans hhead

end Append

namespace Unhexed

variable {a b before part rest : Text}

/-- A part of a text brings no number by itself where no word goes on from it. -/
theorem of_part (h : Unhexed (before ++ part ++ rest))
    (hleft : ∀ c ∈ before.getLast?, isIdentifierChar c = false)
    (hright : (∀ c ∈ rest.head?, isIdentifierChar c = false) ∨
      ∀ c ∈ part.getLast?, isIdentifierChar c = false) : Unhexed part := by
  rintro u w v rfl hpart hw
  refine h (before ++ u) w (v ++ rest) (by simp) ⟨fun c hc => ?_, fun c hc => ?_⟩ hw
  · rcases List.eq_nil_or_concat u with rfl | ⟨u, d, rfl⟩
    · exact hleft c (by simpa using hc)
    · exact hpart.left c (by simpa using hc)
  · rcases v with _ | ⟨d, v⟩
    · rcases hright with hright | hright
      · exact hright c (by simpa using hc)
      · -- a word ends with a character of names
        obtain ⟨w, d, rfl⟩ : ∃ x d, w = x ++ [d] := by
          rcases List.eq_nil_or_concat w with rfl | ⟨x, d, hx⟩
          · cases hw
          · exact ⟨x, d, hx.trans List.concat_eq_append⟩
        cases (hright d (by simp [List.getLast?_cons])).symm.trans
          (Extractor.isIdentifierChar_of_isHexWord hw d (by simp))
    · exact hpart.right c (by simpa using hc)

/-- Two texts that do not touch in a word bring no number together unless the mark of one is torn
apart. -/
theorem append (ha : Unhexed a) (hb : Unhexed b)
    (hapart : (∀ c ∈ a.getLast?, isIdentifierChar c = false) ∨
      ∀ c ∈ b.head?, isIdentifierChar c = false)
    (hmark : a.getLast? = some '&' → b.head? ≠ some 'h' ∧ b.head? ≠ some 'H') :
    Unhexed (a ++ b) := by
  intro u w v htext hisolated hw
  rcases exists_of_hex_append htext hapart hisolated hw with
    ⟨v', rfl, -, hisolated⟩ | ⟨u', -, rfl, hisolated⟩ | ⟨rfl, rfl⟩
  · exact ha u w v' rfl hisolated hw
  · exact hb u' w v rfl hisolated hw
  · obtain ⟨hh, hH⟩ := hmark (by simp)
    exact ((head?_of_isHexWord (v := v) hw).elim hh hH).elim

theorem of_not_mem (h : '&' ∉ a) : Unhexed a := by
  rintro u w v rfl
  exact absurd (by simp) h

/-- A name in a gap brings no number. -/
theorem isolated (hbefore : Unhexed before) (hrest : Unhexed rest) (h : IsolatedBy before rest)
    {name : Text} (hname : ∃ n, name = Context.generatedName n) :
    Unhexed (before ++ name ++ rest) := by
  intro u w v htext hisolated hw
  rcases exists_of_isolated h hname htext hisolated hw with ⟨v', rfl, -, hv'⟩ | ⟨u', -, rfl, hu'⟩
  · exact hbefore u w v' rfl hv' hw
  · exact hrest u' w v rfl hu' hw

end Unhexed

/-! ### The pass over the numbers -/

/-- A scan for numbers stops no later than at a hexadecimal number that stands alone. -/
theorem scanNumber_hex {u w v : Text} {offset : Nat} (hoffset : offset ≤ byteLength u)
    (hisolated : IsolatedBy u v) (hw : Extractor.isHexWord w = true)
    (hvalue : Extractor.hasValue ('&' :: w) = true) :
    (∃ place ≥ offset, Extractor.scanNumber (u ++ '&' :: (w ++ v)) offset = .invalid place ∧
      place + Context.stepAt (u ++ '&' :: (w ++ v)) place ≤ byteLength u) ∨
      ∃ first last value, Extractor.scanNumber (u ++ '&' :: (w ++ v)) offset =
        .found first last value ∧ first ≤ byteLength u := by
  cases hsplit : Extractor.splitAtOrAfter offset (u ++ '&' :: (w ++ v)) with
  | mk before tail =>
  obtain ⟨u', hu, hrest⟩ := Extractor.exists_of_splitAtOrAfter (w := '&' :: (w ++ v)) hoffset
  rw [hsplit] at hu hrest
  dsimp only at hu hrest
  subst hrest
  have htake := Extractor.takeNumber?_hex hw hisolated.right
  obtain ⟨skipped, number, rest, hfind, hlen⟩ : ∃ skipped number rest,
      Extractor.findNumber? (u' ++ '&' :: (w ++ v)) = some (skipped, number, rest) ∧
        skipped.length ≤ u'.length := by
    by_contra hnone
    push Not at hnone
    cases htake.symm.trans (Extractor.takeNumber?_eq_none hnone)
  obtain ⟨tail, htail, hnumber⟩ := Extractor.exists_of_findNumber? hfind
  obtain ⟨m, rfl, rfl⟩ : ∃ m, u' = skipped ++ m ∧ tail = m ++ '&' :: (w ++ v) := by
    rcases List.append_eq_append_iff.mp htail with ⟨x, rfl, hx⟩ | ⟨m, rfl, hm⟩
    · obtain rfl : x = [] := List.length_eq_zero_iff.mp (by
        rw [List.length_append] at hlen
        omega)
      exact ⟨[], by simp, hx.symm⟩
    · exact ⟨m, rfl, hm⟩
  rw [← List.append_assoc] at hu
  rcases Extractor.scanNumber_of_find hsplit hfind with ⟨value, hscan, -⟩ | ⟨hscan, hnone⟩
  · refine .inr ⟨_, _, value, hscan, ?_⟩
    rw [hu, byteLength_append (before ++ skipped)]
    exact Nat.le_add_right _ _
  · have hbefore : offset ≤ byteLength before := by
      have hle : offset ≤ byteLength (u ++ '&' :: (w ++ v)) := by
        rw [byteLength_append]
        omega
      have := Extractor.le_byteLength_splitAtOrAfter hle
      rwa [hsplit] at this
    refine .inl ⟨_, ?_, hscan, ?_⟩
    · rw [byteLength_append]
      omega
    cases m with
    | nil =>
      -- the number stands alone, so it has no value
      rw [List.append_nil] at hu
      rw [List.nil_append, htake] at hnumber
      obtain ⟨rfl, rfl⟩ := Prod.mk.inj (Option.some.inj hnumber)
      cases hvalue.symm.trans (hnone (hu ▸ hisolated))
    | cons c m =>
      have hstep : Context.stepAt (u ++ '&' :: (w ++ v)) (byteLength (before ++ skipped)) =
          c.utf8Size := by
        rw [hu, List.append_assoc, Context.stepAt, splitAtByte?_append]
        rfl
      rw [hstep, hu, byteLength_append (before ++ skipped), byteLength_cons]
      omega

/-- An invalid place in the search for numbers is stepped over. -/
theorem placeBehind?_scanNumber (count : Nat) {text : Text} {offset place : Nat}
    (hle : offset ≤ byteLength text) (hscan : Extractor.scanNumber text offset = .invalid place) :
    Context.placeBehind? text (max place offset) =
      some (max place offset + Context.stepAt text (max place offset)) := by
  exact @Context.Counted.placeBehind? (fun _ => Extractor.scanNumber) _ count text offset place hle hscan

/-- The pass over the numbers leaves no hexadecimal number with an ampersand that stands alone. -/
theorem unhexed_scanNumber (count : Nat) (text : Text) (offset : Nat) (ctx : Context)
    (hnames : ∀ name ∈ ctx.literals.map Prod.snd, ∃ n, name = Context.generatedName n)
    (h : UnhexedBelow offset text) :
    Unhexed (Context.pass (fun _ => Extractor.scanNumber) count text offset ctx).1 := by
  have hbelow {text : Text} {offset place : Nat} (h : UnhexedBelow offset text)
      (hstop : ∀ u w v, text = u ++ '&' :: (w ++ v) → offset ≤ byteLength u → byteLength u < place →
        IsolatedBy u v → Extractor.isHexWord w = true → Extractor.hasValue ('&' :: w) = true →
          False) : UnhexedBelow place text := by
    intro u w v htext hplace hisolated hw
    rcases Nat.lt_or_ge (byteLength u) offset with hlt | hge
    · exact h u w v htext hlt hisolated hw
    · exact Bool.eq_false_of_not_eq_true (hstop u w v htext hge hplace hisolated hw)
  fun_induction Context.pass (fun _ => Extractor.scanNumber) count text offset ctx with
  | case1 count text offset ctx hle hscan =>
    refine unhexed_iff.mpr fun place => hbelow h fun u w v htext hge _ hisolated hw hvalue => ?_
    subst htext
    rcases scanNumber_hex hge hisolated hw hvalue with ⟨_, -, hstop, -⟩ | ⟨_, _, _, hstop, -⟩ <;>
      cases hscan.symm.trans hstop
  | case2 count text offset ctx hle place hscan hnone =>
    cases (placeBehind?_scanNumber count hle hscan).symm.trans hnone
  | case3 count text offset ctx hle place hscan next hnext ih =>
    obtain rfl := Option.some.inj (hnext.symm.trans (placeBehind?_scanNumber count hle hscan))
    refine ih hnames (hbelow h fun u w v htext hge hlt hisolated hw hvalue => ?_)
    subst htext
    rcases scanNumber_hex hge hisolated hw hvalue with
      ⟨place', hplace, hstop, hpast⟩ | ⟨_, _, _, hstop, -⟩
    · obtain rfl := Extraction.invalid.inj (hscan.symm.trans hstop)
      rw [Nat.max_eq_left hplace] at hlt
      omega
    · cases hscan.symm.trans hstop
  | case4 count text offset ctx hle first last value hscan hplace hslice =>
    obtain ⟨before, number, rest, rfl, rfl, rfl, -⟩ := Extractor.exists_of_scanNumber hscan
    cases (slice?_append before number rest).symm.trans hslice
  | case5 count text offset ctx hle first last value hscan hplace before literal rest hslice _ named
      ih =>
    obtain ⟨before', number, rest', rfl, rfl, rfl, htake, hisolated⟩ :=
      Extractor.exists_of_scanNumber hscan
    obtain ⟨rfl, hparts⟩ := Prod.mk.inj
      (Option.some.inj ((slice?_append before' number rest').symm.trans hslice))
    obtain ⟨rfl, rfl⟩ := Prod.mk.inj hparts
    have hkept := names_intern hnames value number
    have hname := hkept _ (Context.mem_literals_intern_self ctx value number)
    refine ih hkept fun u w v htext hlt hisolated' hw => ?_
    rcases exists_of_isolated hisolated hname htext hisolated' hw with
      ⟨v', rfl, rfl, hv'⟩ | ⟨u', rfl, -, -⟩
    · have hright : IsolatedBy u (v' ++ number ++ rest') := by
        obtain ⟨n, hn⟩ := hname
        rcases v' with _ | ⟨c, v'⟩
        · rw [hn] at hisolated'
          cases hisolated'.right 'i' rfl
        · exact ⟨hv'.left, hv'.right⟩
      have hold : u ++ '&' :: (w ++ v') ++ number ++ rest' =
          u ++ '&' :: (w ++ (v' ++ number ++ rest')) := by simp
      have hplace : byteLength u < byteLength (u ++ '&' :: (w ++ v')) := by
        have hsize := Char.utf8Size_pos '&'
        rw [byteLength_append, byteLength_cons]
        omega
      refine hbelow h (fun u₁ w₁ v₁ htext₁ hge hlt₁ hisolated₁ hw₁ hvalue => ?_) u w _ hold hplace
        hright hw
      rw [htext₁] at hscan
      rcases scanNumber_hex hge hisolated₁ hw₁ hvalue with ⟨_, -, hstop, -⟩ | ⟨_, _, _, hstop, hle⟩
      · cases hscan.symm.trans hstop
      · obtain ⟨rfl, -⟩ := Extraction.found.inj (hscan.symm.trans hstop)
        omega
    · have hnamed : byteLength named.1 = byteLength (ctx.intern value number).1 := rfl
      rw [byteLength_append, byteLength_append] at hlt
      omega
  | case6 count text offset ctx hle first last value hscan hplace =>
    exact absurd (Extractor.lt_of_scanNumber hle hscan) hplace
  | case7 count text offset ctx hgt =>
    intro u w v (htext : text = _)
    have hlen := congrArg byteLength htext
    rw [byteLength_append] at hlen
    exact h u w v htext (by omega)

end Source

end Formula
