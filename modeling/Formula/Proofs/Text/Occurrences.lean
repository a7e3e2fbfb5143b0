import Mathlib.Tactic.ByContra
import Formula.Compile.Operands
import Formula.Text.CharClass

/-!
# Occurrences in a text

What the searches of a text find. A token with a character that the text does not have is never
found, and the searches then leave the text as it is. A token of one character is found wherever
the character stands. A name is found as a whole word wherever it stands alone: an occurrence that
overlaps with it would reach into the character before it.

## Main results

* `Text.contains_iff`: a token occurs in a text where the text can be cut around it.
* `Text.replaceAll_eq_self`, `Text.cuts_eq_nil` and their companions: searches in vain.
* `Text.intercalate_splitAll`: the pieces between tokens make up the text.
* `Text.mem_places_singleton_iff`: the places of a single character.
* `Text.isSome_firstWord?`: a name that stands alone is found.
* `Text.isAlphabetic_of_isDecimalDigit`, `Text.isWordChar_of_isBlank`: classes of characters that
  have nothing in common.
-/

namespace Formula.Text

/-! ### Searches in vain -/

theorem contains_eq_isSome_cut? (token text : Text) :
    contains token text = (cut? token text).isSome := by
  induction text with
  | nil => rw [contains, cut?, startsWith, Option.isSome_map]
  | cons c text ih =>
    rw [contains, cut?, startsWith, ih]
    cases after? token (c :: text) with
    | some rest => rfl
    | none => rw [Option.isSome_map]; rfl

theorem contains_iff {token text : Text} :
    contains token text = true ↔ ∃ before rest, text = before ++ token ++ rest := by
  constructor
  · intro h
    rw [contains_eq_isSome_cut?] at h
    obtain ⟨⟨before, rest⟩, h⟩ := Option.isSome_iff_exists.mp h
    exact ⟨before, rest, eq_append_of_cut? h⟩
  · rintro ⟨before, rest, rfl⟩
    induction before with
    | nil =>
      have hstarts : startsWith token (token ++ rest) = true := by
        rw [startsWith, after?_eq_some_iff.mpr rfl]
        rfl
      rw [List.nil_append]
      cases htext : token ++ rest with
      | nil => rwa [contains, ← htext]
      | cons c text => rw [contains, ← htext, hstarts, Bool.true_or]
    | cons c before ih =>
      rw [List.cons_append, List.cons_append, contains, ih, Bool.or_true]

section Absent

variable {token text : Text} {c : Char} (hc : c ∈ token) (h : c ∉ text)
include hc h

theorem contains_eq_false : contains token text = false := by
  by_contra hcontains
  obtain ⟨before, rest, rfl⟩ := contains_iff.mp (Bool.not_eq_false _ ▸ hcontains)
  exact h (by simp [hc])

theorem after?_eq_none : after? token text = none := by
  cases hafter : after? token text with
  | none => rfl
  | some rest =>
    obtain rfl := after?_eq_some_iff.mp hafter
    exact absurd (by simp [hc]) h

theorem cut?_eq_none : cut? token text = none := by
  simpa [contains_eq_isSome_cut?] using contains_eq_false hc h

theorem cutLast?_eq_none : cutLast? token text = none := by
  cases hcut : cutLast? token text with
  | none => rfl
  | some parts =>
    obtain rfl := eq_append_of_cutLast? hcut
    exact absurd (by simp [hc]) h

theorem cuts_eq_nil : cuts token text = [] := by
  rw [List.eq_nil_iff_forall_not_mem]
  rintro ⟨before, rest⟩ hmem
  obtain rfl := eq_append_of_mem_cuts hmem
  exact h (by simp [hc])

theorem splitAll_eq_singleton : splitAll token text = [text] := by
  rw [splitAll]
  induction text with
  | nil => rfl
  | cons d text ih =>
    rw [splitFrom, startsWith, after?_eq_none hc h, if_neg (by simp),
      ih fun hmem => h (List.mem_cons_of_mem _ hmem), List.modifyHead_cons]

theorem replaceAll_eq_self (replacement : Text) : replaceAll token replacement text = text := by
  simp [replaceAll, splitAll_eq_singleton hc h, List.intercalate]

end Absent

/-! ### Pieces between tokens -/

theorem splitFrom_ne_nil (token : Text) (skip : Nat) (text : Text) :
    splitFrom token skip text ≠ [] := by
  fun_induction splitFrom token skip text with
  | case1 => exact List.cons_ne_nil _ _
  | case2 skip c text ih => exact ih
  | case3 => exact List.cons_ne_nil _ _
  | case4 c text hstarts ih =>
    obtain ⟨first, pieces, hpieces⟩ := List.exists_cons_of_ne_nil ih
    rw [hpieces]
    exact List.cons_ne_nil _ _

theorem intercalate_splitFrom {token : Text} (htoken : token ≠ []) (skip : Nat) (text : Text) :
    token.intercalate (splitFrom token skip text) = text.drop skip := by
  fun_induction splitFrom token skip text with
  | case1 => simp [List.intercalate]
  | case2 skip c text ih => exact ih
  | case3 c text hstarts ih =>
    obtain ⟨rest, hrest⟩ := Option.isSome_iff_exists.mp hstarts
    obtain ⟨d, token, rfl⟩ := List.exists_cons_of_ne_nil htoken
    obtain ⟨rfl, htext⟩ : c = d ∧ text = token ++ rest := by
      simpa using after?_eq_some_iff.mp hrest
    obtain ⟨next, parts, hnext⟩ := List.exists_cons_of_ne_nil
      (splitFrom_ne_nil (c :: token) ((c :: token).length - 1) text)
    rw [hnext] at ih ⊢
    rw [List.intercalate_cons_cons, ih, htext]
    simp
  | case4 c text hstarts ih =>
    obtain ⟨part, parts, hparts⟩ := List.exists_cons_of_ne_nil (splitFrom_ne_nil token 0 text)
    rw [hparts] at ih ⊢
    cases parts <;> simpa [List.intercalate] using ih

/-- The pieces between the occurrences of a token, with the token between them, make up the text. -/
theorem intercalate_splitAll {token : Text} (htoken : token ≠ []) (text : Text) :
    token.intercalate (splitAll token text) = text :=
  intercalate_splitFrom htoken 0 text

theorem mem_intercalate {separator : Text} {parts : List Text} {c : Char}
    (h : c ∈ separator.intercalate parts) : c ∈ separator ∨ ∃ part ∈ parts, c ∈ part := by
  induction parts with
  | nil => simp [List.intercalate] at h
  | cons part parts ih =>
    cases parts with
    | nil => exact .inr ⟨part, List.mem_singleton_self _, by simpa [List.intercalate] using h⟩
    | cons next parts =>
      rw [List.intercalate_cons_cons, List.append_assoc, List.mem_append, List.mem_append] at h
      rcases h with h | h | h
      · exact .inr ⟨part, List.mem_cons_self .., h⟩
      · exact .inl h
      · exact (ih h).imp_right fun ⟨p, hp, hc⟩ => ⟨p, List.mem_cons_of_mem _ hp, hc⟩

theorem mem_intercalate_of_mem {separator part : Text} {parts : List Text} (hpart : part ∈ parts)
    {c : Char} (hc : c ∈ part) : c ∈ separator.intercalate parts := by
  induction parts with
  | nil => cases hpart
  | cons first parts ih =>
    cases parts with
    | nil =>
      obtain rfl := List.mem_singleton.mp hpart
      simpa [List.intercalate] using hc
    | cons next parts =>
      rw [List.intercalate_cons_cons]
      rcases List.mem_cons.mp hpart with rfl | hpart
      · exact List.mem_append_left _ (List.mem_append_left _ hc)
      · exact List.mem_append_right _ (ih hpart)

theorem mem_of_mem_splitAll {token text part : Text} (htoken : token ≠ [])
    (hpart : part ∈ splitAll token text) {c : Char} (hc : c ∈ part) : c ∈ text :=
  intercalate_splitAll htoken text ▸ mem_intercalate_of_mem hpart hc

/-! ### Places -/

theorem exists_of_mem_places {token text : Text} {i : Nat} (h : i ∈ places token text) :
    ∃ before rest, text = before ++ token ++ rest ∧ before.length = i := by
  -- the search has passed `place` characters, of which `passed` is the last part
  have hfrom (passed text : Text) (skip : Nat) (h : i ∈ placesFrom token skip passed.length text) :
      ∃ before rest, passed ++ text = before ++ token ++ rest ∧ before.length = i := by
    induction text generalizing passed skip with
    | nil => simp [placesFrom] at h
    | cons c text ih =>
      have hnext (skip : Nat) (h : i ∈ placesFrom token skip (passed.length + 1) text) :
          ∃ before rest, passed ++ c :: text = before ++ token ++ rest ∧ before.length = i := by
        have := ih (passed ++ [c]) skip (by simpa using h)
        simpa using this
      cases skip with
      | succ skip =>
        rw [placesFrom] at h
        exact hnext skip h
      | zero =>
        rw [placesFrom] at h
        split at h
        · next hstarts =>
          obtain ⟨rest, hrest⟩ := Option.isSome_iff_exists.mp hstarts
          rcases List.mem_cons.mp h with rfl | h
          · exact ⟨passed, rest, by rw [after?_eq_some_iff.mp hrest, List.append_assoc], rfl⟩
          · exact hnext _ h
        · exact hnext 0 h
  simpa using hfrom [] text 0 h

/-- The places of a single character. -/
theorem mem_places_singleton_iff {c : Char} {text : Text} {i : Nat} :
    i ∈ places [c] text ↔ text[i]? = some c := by
  constructor
  · intro h
    obtain ⟨before, rest, rfl, rfl⟩ := exists_of_mem_places h
    simp
  · have hfrom (place : Nat) (text : Text) (i : Nat) (h : text[i]? = some c) :
        place + i ∈ placesFrom [c] 0 place text := by
      induction text generalizing place i with
      | nil => simp at h
      | cons d text ih =>
        rw [placesFrom]
        cases i with
        | zero =>
          obtain rfl : d = c := by simpa using h
          simp
        | succ i =>
          have := ih (place + 1) i (by simpa using h)
          rw [Nat.add_assoc, Nat.add_comm 1 i] at this
          split
          · exact List.mem_cons_of_mem _ this
          · exact this
    intro h
    simpa [places] using hfrom 0 text i h

/-! ### Whole words -/

/-- The search does not miss an occurrence whose first character cannot be reached by an
occurrence before it. -/
theorem mem_cuts_of_isolated {token before rest : Text} (htoken : token ≠ [])
    (h : ∀ c ∈ before.getLast?, c ∉ token) :
    (before, rest) ∈ cuts token (before ++ token ++ rest) := by
  have hfrom (skip : Nat) (passed before : Text) (h : ∀ c ∈ before.getLast?, c ∉ token)
      (hskip : skip ≤ before.length) :
      (passed.reverse ++ before, rest) ∈ cutsFrom token skip passed (before ++ token ++ rest) := by
    induction before generalizing skip passed with
    | nil =>
      obtain rfl : skip = 0 := by simpa using hskip
      obtain ⟨c, tail, rfl⟩ := List.exists_cons_of_ne_nil htoken
      have hafter : after? (c :: tail) (c :: (tail ++ rest)) = some rest :=
        after?_eq_some_iff.mpr rfl
      simp [cutsFrom, hafter]
    | cons d before ih =>
      have hlast : ∀ c ∈ before.getLast?, c ∉ token := by
        cases before with
        | nil => simp
        | cons e before => simpa [List.getLast?_cons_cons] using h
      have hnext (skip : Nat) (hskip : skip ≤ before.length) :
          (passed.reverse ++ d :: before, rest) ∈
            cutsFrom token skip (d :: passed) (before ++ token ++ rest) := by
        simpa using ih skip (d :: passed) hlast hskip
      cases skip with
      | succ skip =>
        rw [List.cons_append, List.cons_append, cutsFrom]
        exact hnext skip (by simpa using hskip)
      | zero =>
        rw [List.cons_append, List.cons_append, cutsFrom]
        split
        · next r hr =>
          -- an occurrence that starts here ends before the one looked for
          refine List.mem_cons_of_mem _ (hnext _ ?_)
          by_contra hlong
          have heq : d :: before ++ (token ++ rest) = token ++ r := by
            simpa using after?_eq_some_iff.mp hr
          obtain ⟨tail, htail, -⟩ : ∃ tail, token = d :: before ++ tail ∧ token ++ rest = tail ++ r := by
            rcases List.append_eq_append_iff.mp heq with ⟨tail, htail, hrest⟩ | ⟨tail, htail, hrest⟩
            · exact ⟨tail, htail, hrest⟩
            · have := congrArg List.length htail
              simp at this
              omega
          obtain ⟨c, hc⟩ : ∃ c, (d :: before).getLast? = some c :=
            ⟨_, List.getLast?_eq_some_getLast (List.cons_ne_nil _ _)⟩
          refine h c hc ?_
          rw [htail]
          exact List.mem_append_left _ (List.mem_of_getLast? hc)
        · exact hnext 0 (Nat.zero_le _)
  exact hfrom 0 [] before h (Nat.zero_le _)

/-- A name that stands alone is found as a whole word. -/
theorem isSome_firstWord? {name before rest : Text} (hname : name ≠ [])
    (hchars : ∀ c ∈ name, isIdentifierChar c = true)
    (hbefore : ∀ c ∈ before.getLast?, isIdentifierChar c = false)
    (hrest : ∀ c ∈ rest.head?, isIdentifierChar c = false) :
    (firstWord? name (before ++ name ++ rest)).isSome := by
  have hmem : (before, rest) ∈ cuts name (before ++ name ++ rest) :=
    mem_cuts_of_isolated hname fun c hc hin => by simpa [hchars c hin] using hbefore c hc
  rw [firstWord?, Option.isSome_map, List.find?_isSome]
  refine ⟨_, hmem, ?_⟩
  have hany {o : Option Char} (h : ∀ c ∈ o, isIdentifierChar c = false) :
      o.any isIdentifierChar = false := by
    cases o with
    | none => rfl
    | some c => exact h c rfl
  simp only [hany hbefore, hany hrest, Bool.not_false, Bool.and_self]

/-! ### Classes of characters -/

/-- Whether ranges start in increasing order, at `low` or beyond it. -/
def areRising (low : Nat) : List (Nat × Nat) → Bool
  | [] => true
  | r :: rs => Nat.ble low r.1 && areRising r.1 rs

/-- Whether no range of the one list meets a range of the other, for lists in increasing order: both
are walked at once. -/
def areApart : List (Nat × Nat) → List (Nat × Nat) → Bool
  | [], _ => true
  | r :: rs, b =>
    match b.dropWhile fun r' => Nat.blt r'.2 r.1 with
    | [] => true
    | r' :: b' => Nat.blt r.2 r'.1 && areApart rs (r' :: b')

theorem le_of_areRising {low : Nat} {ranges : List (Nat × Nat)} (h : areRising low ranges = true)
    {r : Nat × Nat} (hr : r ∈ ranges) : low ≤ r.1 := by
  induction ranges generalizing low with
  | nil => cases hr
  | cons r' rest ih =>
    rw [areRising, Bool.and_eq_true, Nat.ble_eq] at h
    obtain rfl | hr := List.mem_cons.mp hr
    · exact h.1
    · exact Nat.le_trans h.1 (ih h.2 hr)

theorem areRising_zero {low : Nat} {ranges : List (Nat × Nat)} (h : areRising low ranges = true) :
    areRising 0 ranges = true := by
  cases ranges with
  | nil => rfl
  | cons r rest =>
    rw [areRising, Bool.and_eq_true] at h ⊢
    exact ⟨Nat.ble_eq.mpr (Nat.zero_le _), h.2⟩

theorem areRising_of_append {low : Nat} {xs ys : List (Nat × Nat)}
    (h : areRising low (xs ++ ys) = true) : areRising 0 ys = true := by
  induction xs generalizing low with
  | nil => exact areRising_zero h
  | cons r xs ih =>
    rw [List.cons_append, areRising, Bool.and_eq_true] at h
    exact ih h.2

/-- A code point lies in no range of the other list: the ranges that are dropped end before it, and
those that stay start behind the range it lies in. -/
theorem not_mem_of_areApart {a b : List (Nat × Nat)} (ha : areRising 0 a = true)
    (hb : areRising 0 b = true) (hapart : areApart a b = true) {n : Nat} {r r' : Nat × Nat}
    (hr : r ∈ a) (hn : r.1 ≤ n ∧ n ≤ r.2) (hr' : r' ∈ b) : ¬(r'.1 ≤ n ∧ n ≤ r'.2) := by
  induction a generalizing b with
  | nil => cases hr
  | cons first rest ih =>
    rw [areRising, Bool.and_eq_true] at ha
    have hfirst : first.1 ≤ n := by
      obtain rfl | hrest := List.mem_cons.mp hr
      · exact hn.1
      · exact Nat.le_trans (le_of_areRising ha.2 hrest) hn.1
    rw [areApart] at hapart
    have hsplit := b.takeWhile_append_dropWhile (p := fun r' => Nat.blt r'.2 first.1)
    rw [← hsplit, List.mem_append] at hr'
    obtain hdropped | hkept := hr'
    · have := List.all_eq_true.mp List.all_takeWhile _ hdropped
      rw [Nat.blt_eq] at this
      omega
    · split at hapart
      · next heq =>
        rw [heq] at hkept
        cases hkept
      · next next' b' heq =>
        rw [heq] at hkept hsplit
        have hrising : areRising 0 (next' :: b') = true := areRising_of_append (hsplit ▸ hb)
        rw [Bool.and_eq_true, Nat.blt_eq] at hapart
        obtain rfl | hrest := List.mem_cons.mp hr
        · have hbehind : next'.1 ≤ r'.1 := by
            rw [areRising, Bool.and_eq_true] at hrising
            obtain rfl | hlater := List.mem_cons.mp hkept
            · exact Nat.le_refl _
            · exact le_of_areRising hrising.2 hlater
          omega
        · exact ih (areRising_zero ha.2) hrising hapart.2 hrest hkept

theorem inRanges_eq_false {a b : List (Nat × Nat)}
    (hapart : (areRising 0 a && areRising 0 b && areApart a b) = true) {c : Char}
    (h : inRanges a c = true) : inRanges b c = false := by
  rw [Bool.and_eq_true, Bool.and_eq_true] at hapart
  by_contra hb
  obtain ⟨r, hmem, hin⟩ := List.any_eq_true.mp h
  obtain ⟨r', hmem', hin'⟩ := List.any_eq_true.mp (Bool.not_eq_false _ ▸ hb)
  simp only [Bool.and_eq_true, decide_eq_true_eq] at hin hin'
  exact not_mem_of_areApart hapart.1.1 hapart.1.2 hapart.2 hmem hin hmem' hin'

theorem isUpper_iff {c : Char} : c.isUpper = true ↔ 65 ≤ c.toNat ∧ c.toNat ≤ 90 :=
  decide_eq_true_iff

theorem isAlpha_iff {c : Char} :
    c.isAlpha = true ↔ 65 ≤ c.toNat ∧ c.toNat ≤ 90 ∨ 97 ≤ c.toNat ∧ c.toNat ≤ 122 := by
  have hlower : c.isLower = true ↔ 97 ≤ c.toNat ∧ c.toNat ≤ 122 :=
    Bool.and_eq_true_iff.trans (and_congr decide_eq_true_iff decide_eq_true_iff)
  exact Bool.or_eq_true_iff.trans (or_congr isUpper_iff hlower)

theorem isDigit_iff {c : Char} : c.isDigit = true ↔ 48 ≤ c.toNat ∧ c.toNat ≤ 57 :=
  Char.isDigit_iff_toNat

/-- Lower case keeps a character, or moves a capital by 32 places. -/
theorem eq_or_of_toLower {c d : Char} (h : c.toLower = d) :
    c = d ∨ c.toNat + 32 = d.toNat ∧ 65 ≤ c.toNat ∧ c.toNat ≤ 90 := by
  subst h
  by_cases hupper : c.val ≥ 'A'.val ∧ c.val ≤ 'Z'.val
  · have hvalue : c.toLower.val = c.val + 32 := congrArg Char.val (dif_pos hupper)
    have hbounds : 65 ≤ c.toNat ∧ c.toNat ≤ 90 := hupper
    have hsum : c.toLower.toNat = (c.toNat + 32) % 2 ^ 32 :=
      (congrArg UInt32.toNat hvalue).trans (UInt32.toNat_add ..)
    omega
  · have hsame : c.toLower = c := dif_neg hupper
    exact .inl hsame.symm

/-- A digit is no letter. -/
theorem isAlphabetic_of_isDecimalDigit {c : Char} (h : isDecimalDigit c = true) :
    isAlphabetic c = false := by
  rw [isDecimalDigit] at h
  rw [isAlphabetic]
  split at h
  · next hascii =>
    rw [if_pos hascii, Bool.eq_false_iff, ne_eq, isAlpha_iff]
    have := isDigit_iff.mp h
    omega
  · next hascii =>
    rw [if_neg hascii, inRanges_eq_false (by decide +kernel) h,
      inRanges_eq_false (by decide) h, inRanges_eq_false (by decide) h,
      inRanges_eq_false (by decide +kernel) h]
    rfl

/-- White space stands in no name. -/
theorem isWordChar_of_isBlank {c : Char} (h : isBlank c = true) : isWordChar c = false := by
  rw [isBlank] at h
  split at h
  · next hascii =>
    have hmem : c.toNat ∈ [0x09, 0x0A, 0x0B, 0x0C, 0x0D, 0x20] := by
      simp only [Bool.or_eq_true, Bool.and_eq_true, beq_iff_eq, decide_eq_true_eq] at h
      simp only [List.mem_cons, List.not_mem_nil, or_false]
      omega
    have hall : ∀ n ∈ [0x09, 0x0A, 0x0B, 0x0C, 0x0D, 0x20], isWordChar (Char.ofNat n) = false := by
      decide
    rw [← Char.ofNat_toNat c]
    exact hall _ hmem
  · next hascii =>
    have hunderscore : (c == '_') = false := by
      rw [beq_eq_false_iff_ne]
      rintro rfl
      exact hascii (by decide)
    have hout {ranges : List (Nat × Nat)}
        (hapart : (areRising 0 blankRanges && areRising 0 ranges && areApart blankRanges ranges) = true) :
        inRanges ranges c = false := inRanges_eq_false hapart h
    simp only [isWordChar, isAlphanumeric, isAlphabetic, isNumeral, if_neg hascii, hunderscore]
    rw [hout (by decide +kernel), hout (by decide +kernel), hout (by decide +kernel), hout (by decide +kernel),
      hout (by decide), hout (by decide), hout (by decide)]
    rfl

end Formula.Text
