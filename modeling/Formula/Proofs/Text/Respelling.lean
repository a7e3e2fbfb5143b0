import Formula.Proofs.Text.Pieces

/-!
# Texts that differ in their words

Two texts with the same characters between their words are taken apart in the same way, as long as
what they are searched for has no words of its own, or words that both have in the same places. A
search passes the words as a whole. So it finds the same occurrences in both texts, and what stands
before and after them differs in words only.

## Main definitions

* `Text.Respells`: texts with the same characters between words that are related.
* `Text.IsFixed`: a token that stands in one text wherever it stands in the other.
* `Text.sites`: the text before and after every occurrence of a token.

## Main results

* `Text.Respells.scan`: induction over a search from left to right.
* `Text.Respells.splitAll`, `Text.Respells.replaceAll`, `Text.Respells.sites`: what is found.
-/

namespace Formula

open Text

/-- Pieces that are the same character, or related words. -/
inductive Piece.Respells (r : Text → Text → Prop) : Piece → Piece → Prop
  | mark (c : Char) : Respells r (.mark c) (.mark c)
  | atom {x y : Text} (h : r x y) : Respells r (.atom x) (.atom y)

namespace Text

variable {r : Text → Text → Prop}

/-- Two texts with the same characters between words that are related. -/
def Respells (r : Text → Text → Prop) (text text' : Text) : Prop :=
  List.Forall₂ (Piece.Respells r) (pieces text) (pieces text')

/-! ### Pieces of both texts -/

theorem exists_of_forall₂_append {α β : Type} {p : α → β → Prop} {us vs : List α} {ws : List β}
    (h : List.Forall₂ p (us ++ vs) ws) :
    ∃ us' vs', ws = us' ++ vs' ∧ List.Forall₂ p us us' ∧ List.Forall₂ p vs vs' := by
  induction us generalizing ws with
  | nil => exact ⟨[], ws, rfl, .nil, h⟩
  | cons u us ih =>
    cases h with
    | cons hu h =>
      obtain ⟨us', vs', rfl, hus, hvs⟩ := ih h
      exact ⟨_ :: us', vs', rfl, .cons hu hus, hvs⟩

theorem pieces_eq_nil_iff {text : Text} : pieces text = [] ↔ text = [] := by
  refine ⟨fun h => ?_, fun h => by rw [h]; rfl⟩
  rw [← textAll_pieces text, h, Piece.textAll_nil]

namespace Respells

variable {text text' a b a' b' : Text}

theorem flip (h : Respells r text text') : Respells (fun x y => r y x) text' text := by
  refine (List.Forall₂.flip h).imp fun p q hpq => ?_
  cases hpq with
  | mark c => exact .mark c
  | atom h => exact .atom h

theorem of_pieces {us vs : List Piece} (h : List.Forall₂ (Piece.Respells r) us vs)
    (hus : pieces text = us) (hvs : pieces text' = vs) : Respells r text text' := by
  rw [Respells, hus, hvs]
  exact h

theorem nil : Respells r [] [] :=
  List.Forall₂.nil

theorem eq_nil_iff (h : Respells r text text') : text = [] ↔ text' = [] := by
  have hpieces {r : Text → Text → Prop} {text text' : Text} (h : Respells r text text')
      (hnil : text = []) : text' = [] := by
    subst hnil
    exact pieces_eq_nil_iff.mp (List.forall₂_nil_left_iff.mp h)
  exact ⟨hpieces h, hpieces h.flip⟩

theorem words (h : Respells r text text') : List.Forall₂ r (words text) (words text') := by
  rw [words_eq_atoms, words_eq_atoms]
  rw [Respells] at h
  generalize pieces text = us, pieces text' = vs at h
  induction h with
  | nil => exact .nil
  | cons hpq _ ih =>
    cases hpq with
    | mark c => exact ih
    | atom hxy => exact .cons hxy ih

/-- The characters between words are the same. -/
theorem mem_of_mem (h : Respells r text text') {c : Char} (hc : isIdentifierChar c = false)
    (hmem : c ∈ text) : c ∈ text' := by
  obtain ⟨a, b, rfl⟩ := List.append_of_mem hmem
  rw [Respells, pieces_append_cons hc] at h
  obtain ⟨us, vs, heq, -, hvs⟩ := exists_of_forall₂_append h
  cases hvs with
  | cons hpq =>
    cases hpq
    rw [(pieces_split heq).1]
    simp [Piece.text]

/-- Texts that have the same words related to themselves are respellings of themselves. -/
theorem refl (text : Text) (h : ∀ x ∈ Text.words text, r x x) : Respells r text text := by
  rw [words_eq_atoms] at h
  rw [Respells]
  generalize pieces text = us at h
  induction us with
  | nil => exact .nil
  | cons p us ih =>
    cases p with
    | mark c => exact .cons (.mark c) (ih h)
    | atom x =>
      obtain ⟨hx, hus⟩ := List.forall_mem_cons.mp h
      exact .cons (.atom hx) (ih hus)

theorem word {x y : Text} (hx : pieces x = [.atom x]) (hy : pieces y = [.atom y]) (h : r x y) :
    Respells r x y :=
  of_pieces (.cons (.atom h) .nil) hx hy

end Respells

/-! ### Tokens -/

/-- A token that begins and ends with no character of names, and whose words, if it has any, are
related to themselves and to nothing else. -/
structure IsFixed (r : Text → Text → Prop) (token : Text) : Prop where
  first : ∃ c rest, token = c :: rest ∧ isIdentifierChar c = false
  last : ∀ c ∈ token.getLast?, isIdentifierChar c = false
  left : ∀ ps, List.Forall₂ (Piece.Respells r) (pieces token) ps ↔ ps = pieces token
  right : ∀ ps, List.Forall₂ (Piece.Respells r) ps (pieces token) ↔ ps = pieces token

theorem forall₂_respells_flip {us vs : List Piece} :
    List.Forall₂ (Piece.Respells fun x y => r y x) us vs ↔ List.Forall₂ (Piece.Respells r) vs us := by
  have himp {r : Text → Text → Prop} {us vs : List Piece}
      (h : List.Forall₂ (Piece.Respells fun x y => r y x) us vs) :
      List.Forall₂ (Piece.Respells r) vs us :=
    (List.Forall₂.flip h).imp fun p q hpq => by
      cases hpq with
      | mark c => exact .mark c
      | atom h => exact .atom h
  exact ⟨himp, himp⟩

namespace IsFixed

variable {token : Text} (h : IsFixed r token)
include h

theorem flip : IsFixed (fun x y => r y x) token where
  first := h.first
  last := h.last
  left ps := forall₂_respells_flip.trans (h.right ps)
  right ps := forall₂_respells_flip.trans (h.left ps)

theorem ne_nil : token ≠ [] := by
  obtain ⟨c, rest, rfl, -⟩ := h.first
  exact List.cons_ne_nil _ _

theorem respells : Respells r token token :=
  (h.left _).mpr rfl

theorem pieces_append (a b : Text) : pieces (a ++ token ++ b) = pieces a ++ pieces token ++ pieces b := by
  have hlast : ∀ c ∈ (a ++ token).getLast?, isIdentifierChar c = false := by
    obtain ⟨c, hc⟩ : ∃ c, token.getLast? = some c := ⟨_, List.getLast?_eq_some_getLast h.ne_nil⟩
    rw [List.getLast?_append, hc]
    exact fun d hd => h.last d (hc.trans (by simpa using hd))
  have hfirst : ∀ c ∈ token.head?, isIdentifierChar c = false := by
    obtain ⟨c, rest, rfl, hc⟩ := h.first
    rintro d hd
    obtain rfl : c = d := by simpa using hd
    exact hc
  rw [Text.pieces_append (.inl hlast), Text.pieces_append (.inr hfirst)]

/-- A token stands between texts as it does between their respellings. -/
theorem respells_append {a a' b b' : Text} (ha : Respells r a a') (hb : Respells r b b') :
    Respells r (a ++ token ++ b) (a' ++ token ++ b') := by
  rw [Respells, h.pieces_append, h.pieces_append]
  exact List.rel_append (List.rel_append ha h.respells) hb

/-- What follows a token at the front of a text follows it in the respelling. -/
theorem exists_of_after? {text text' rest : Text} (hrespells : Respells r text text')
    (hrest : after? token text = some rest) :
    ∃ rest', after? token text' = some rest' ∧ Respells r rest rest' := by
  obtain rfl := after?_eq_some_iff.mp hrest
  rw [Respells, ← List.nil_append token, h.pieces_append] at hrespells
  obtain ⟨us, vs, heq, hus, hvs⟩ := exists_of_forall₂_append hrespells
  obtain rfl := (h.left us).mp hus
  obtain ⟨htext, -, hpieces⟩ := pieces_split heq
  rw [textAll_pieces] at htext
  refine ⟨_, after?_eq_some_iff.mpr htext, ?_⟩
  rw [Respells, hpieces]
  exact hvs

/-- A token that is not at the front of a text is not at the front of its respelling. -/
theorem after?_eq_none {text text' : Text} (hrespells : Respells r text text')
    (hnone : after? token text = none) : after? token text' = none := by
  refine Option.eq_none_iff_forall_not_mem.mpr fun rest' hrest => ?_
  obtain ⟨rest, hrest, -⟩ := h.flip.exists_of_after? hrespells.flip hrest
  rw [hnone] at hrest
  cases hrest

/-- A word does not begin with a token. -/
theorem after?_of_isIdentifierChar {c : Char} (hc : isIdentifierChar c = true) (text : Text) :
    after? token (c :: text) = none := by
  obtain ⟨d, rest, rfl, hd⟩ := h.first
  rw [after?_cons_cons, if_neg]
  rintro rfl
  rw [hc] at hd
  cases hd

end IsFixed

/-- Characters that are no part of a name make up a token without words. -/
theorem isFixed_of_forall {token : Text} (hne : token ≠ [])
    (htoken : ∀ c ∈ token, isIdentifierChar c = false) : IsFixed r token := by
  have hpieces : pieces token = token.map .mark := by
    clear hne
    induction token with
    | nil => rfl
    | cons c token ih =>
      obtain ⟨hc, htoken⟩ := List.forall_mem_cons.mp htoken
      rw [pieces_cons hc, ih htoken, List.map_cons]
  have hmarks {r : Text → Text → Prop} (ps : List Piece) :
      List.Forall₂ (Piece.Respells r) (token.map .mark) ps ↔ ps = token.map .mark := by
    clear hpieces hne htoken
    induction token generalizing ps with
    | nil => simp
    | cons c token ih =>
      rw [List.map_cons, List.forall₂_cons_left_iff]
      constructor
      · rintro ⟨p, us, hp, hus, rfl⟩
        cases hp
        rw [(ih us).mp hus]
      · rintro rfl
        exact ⟨_, _, .mark c, (ih _).mpr rfl, rfl⟩
  refine ⟨?_, fun c hc => htoken c (List.mem_of_getLast? hc), fun ps => ?_, fun ps => ?_⟩
  · obtain ⟨c, rest, rfl⟩ := List.exists_cons_of_ne_nil hne
    exact ⟨c, rest, rfl, htoken c (List.mem_cons_self ..)⟩
  · rw [hpieces]
    exact hmarks ps
  · rw [hpieces, ← forall₂_respells_flip]
    exact hmarks ps

/-- A word between two characters makes up a token if it is related to itself only. -/
theorem isFixed_enclosed {c : Char} (hc : isIdentifierChar c = false) {w : Text}
    (hw : pieces w = [.atom w]) (hleft : ∀ y, r w y ↔ y = w) (hright : ∀ x, r x w ↔ x = w) :
    IsFixed r (c :: (w ++ [c])) := by
  have hpieces : pieces (c :: (w ++ [c])) = [.mark c, .atom w, .mark c] := by
    rw [pieces_cons hc, pieces_append_cons hc, hw]
    rfl
  have hmarks {r : Text → Text → Prop} (hr : ∀ y, r w y ↔ y = w) (ps : List Piece) :
      List.Forall₂ (Piece.Respells r) [.mark c, .atom w, .mark c] ps ↔
        ps = [.mark c, .atom w, .mark c] := by
    constructor
    · rintro (_ | ⟨⟨⟩, _ | ⟨hatom, _ | ⟨⟨⟩, ⟨⟩⟩⟩⟩)
      cases hatom with
      | atom h => rw [(hr _).mp h]
    · rintro rfl
      exact .cons (.mark c) (.cons (.atom ((hr w).mpr rfl)) (.cons (.mark c) .nil))
  refine ⟨⟨c, _, rfl, hc⟩, fun d hd => ?_, fun ps => ?_, fun ps => ?_⟩
  · rw [← List.cons_append, List.getLast?_concat] at hd
    exact Option.some.inj hd ▸ hc
  · rw [hpieces]
    exact hmarks hleft ps
  · rw [hpieces, ← forall₂_respells_flip]
    exact hmarks hright ps

/-! ### Searching from left to right -/

/-- A word with what stands behind it. -/
structure IsWordBefore (x rest : Text) : Prop where
  ne_nil : x ≠ []
  chars : ∀ c ∈ x, isIdentifierChar c = true
  apart : ∀ c ∈ rest.head?, isIdentifierChar c = false

theorem IsWordBefore.of_pieces {text x : Text} {us : List Piece} (h : pieces text = .atom x :: us) :
    IsWordBefore x (Piece.textAll us) := by
  have hproper : ∀ p ∈ Piece.atom x :: us, p.IsProper := h ▸ isProper_of_mem_pieces
  obtain ⟨⟨hne, hchars⟩, hproper⟩ := List.forall_mem_cons.mp hproper
  refine ⟨hne, hchars, fun c hc => ?_⟩
  have hchain := List.isChain_cons.mp (h ▸ isChain_pieces text)
  rcases us with _ | ⟨d | y, us⟩
  · cases hc
  · obtain rfl : d = c := by simpa [Piece.text] using hc
    exact hproper (.mark d) (List.mem_cons_self ..)
  · exact absurd (hchain.1 _ rfl) (by simp [Piece.isMark])

theorem IsWordBefore.pieces_append {x rest before : Text} (h : IsWordBefore x rest)
    (hbefore : before <+: rest) : pieces (x ++ before) = .atom x :: pieces before := by
  rw [Text.pieces_append, pieces_of_name h.ne_nil h.chars, List.singleton_append]
  refine .inr fun c hc => ?_
  obtain ⟨after, rfl⟩ := hbefore
  exact h.apart c (by rw [List.head?_append, Option.mem_def.mp hc]; rfl)

/-- A search for a token passes what is the token, what is a word, and what is another character, in
both texts at a time. -/
theorem Respells.scan {token : Text} (htoken : IsFixed r token) {motive : Text → Text → Prop}
    (nil : motive [] [])
    (found : ∀ rest rest', Respells r rest rest' → motive rest rest' →
      motive (token ++ rest) (token ++ rest'))
    (word : ∀ x y rest rest', IsWordBefore x rest → IsWordBefore y rest' → r x y →
      Respells r rest rest' → motive rest rest' → motive (x ++ rest) (y ++ rest'))
    (other : ∀ c rest rest', after? token (c :: rest) = none → after? token (c :: rest') = none →
      isIdentifierChar c = false → Respells r rest rest' → motive rest rest' →
        motive (c :: rest) (c :: rest'))
    {text text' : Text} (h : Respells r text text') : motive text text' := by
  induction hlen : text.length using Nat.strongRecOn generalizing text text' with
  | _ n ih =>
    cases hafter : after? token text with
    | some rest =>
      obtain ⟨rest', hafter', hrest⟩ := htoken.exists_of_after? h hafter
      obtain rfl := after?_eq_some_iff.mp hafter
      obtain rfl := after?_eq_some_iff.mp hafter'
      have := List.length_pos_iff.mpr htoken.ne_nil
      rw [List.length_append] at hlen
      exact found rest rest' hrest (ih rest.length (by omega) hrest rfl)
    | none =>
      have hafter' := htoken.after?_eq_none h hafter
      have hpieces : List.Forall₂ (Piece.Respells r) (pieces text) (pieces text') := h
      generalize hus : pieces text = us, hvs : pieces text' = vs at hpieces
      cases hpieces with
      | nil =>
        obtain rfl := pieces_eq_nil_iff.mp hus
        obtain rfl := pieces_eq_nil_iff.mp hvs
        exact nil
      | @cons p q us vs hpq hpieces =>
        obtain ⟨htext, hfirst, hrest⟩ := pieces_split (u := [p]) hus
        obtain ⟨htext', hfirst', hrest'⟩ := pieces_split (u := [q]) hvs
        have hrespells : Respells r (Piece.textAll us) (Piece.textAll vs) :=
          .of_pieces hpieces hrest hrest'
        have hproper := isProper_of_mem_pieces p (hus ▸ List.mem_cons_self ..)
        rw [htext, List.length_append] at hlen
        rw [htext] at hafter ⊢
        rw [htext'] at hafter' ⊢
        cases hpq with
        | mark c =>
          have hshort : (Piece.textAll us).length < n := by
            simp only [Piece.textAll_cons, Piece.text, Piece.textAll_nil, List.append_nil,
              List.length_singleton] at hlen
            omega
          exact other c _ _ hafter hafter' hproper hrespells (ih _ hshort hrespells rfl)
        | @atom x y hxy =>
          have hword := IsWordBefore.of_pieces hus
          have hpos := List.length_pos_iff.mpr hword.ne_nil
          rw [Piece.textAll_cons, Piece.textAll_nil, List.append_nil] at hlen ⊢
          have hshort : (Piece.textAll us).length < n := by
            rw [Piece.text] at hlen
            omega
          rw [Piece.textAll_cons, Piece.textAll_nil, List.append_nil]
          exact word x y _ _ hword (.of_pieces hvs) hxy hrespells (ih _ hshort hrespells rfl)

/-! ### Parts between tokens -/

theorem splitFrom_length_append (token u text : Text) :
    splitFrom token u.length (u ++ text) = splitFrom token 0 text := by
  induction u with
  | nil => rfl
  | cons c u ih => exact ih

theorem splitAll_append_token {token : Text} (hne : token ≠ []) (rest : Text) :
    splitAll token (token ++ rest) = [] :: splitAll token rest := by
  obtain ⟨c, token, rfl⟩ := List.exists_cons_of_ne_nil hne
  have hstarts : startsWith (c :: token) (c :: (token ++ rest)) = true := by
    rw [startsWith, Option.isSome_iff_exists]
    exact ⟨rest, after?_eq_some_iff.mpr rfl⟩
  rw [splitAll, List.cons_append, splitFrom, if_pos hstarts]
  exact congrArg ([] :: ·) (splitFrom_length_append (c :: token) token rest)

theorem splitAll_cons {token text : Text} {c : Char} (h : after? token (c :: text) = none) :
    splitAll token (c :: text) = (splitAll token text).modifyHead (c :: ·) := by
  have hstarts : startsWith token (c :: text) = false := by rw [startsWith, h, Option.isSome_none]
  rw [splitAll, splitFrom, if_neg (by simp [hstarts]), splitAll]

/-- A word belongs to the part that it stands in. -/
theorem IsFixed.splitAll_word {token : Text} (h : IsFixed r token) {x : Text}
    (hx : ∀ c ∈ x, isIdentifierChar c = true) (rest : Text) :
    splitAll token (x ++ rest) = (splitAll token rest).modifyHead (x ++ ·) := by
  induction x with
  | nil => exact (congrFun List.modifyHead_id _).symm
  | cons c x ih =>
    obtain ⟨hc, hx⟩ := List.forall_mem_cons.mp hx
    rw [List.cons_append, splitAll_cons (h.after?_of_isIdentifierChar hc _), ih hx,
      List.modifyHead_modifyHead]
    rfl

theorem prefix_of_splitAll {token text part : Text} {parts : List Text} (hne : token ≠ [])
    (h : splitAll token text = part :: parts) : part <+: text := by
  have htext := intercalate_splitAll hne text
  rw [h] at htext
  cases parts with
  | nil => exact ⟨[], by simpa [List.intercalate] using htext⟩
  | cons next parts =>
    rw [List.intercalate_cons_cons, List.append_assoc] at htext
    exact ⟨_, htext⟩

namespace Respells

variable {token text text' : Text} (htoken : IsFixed r token)
include htoken

/-- A text is split at a token as its respelling is. -/
theorem splitAll (h : Respells r text text') :
    List.Forall₂ (Respells r) (splitAll token text) (splitAll token text') := by
  refine h.scan (motive := fun text text' =>
      List.Forall₂ (Respells r) (Text.splitAll token text) (Text.splitAll token text')) htoken ?_
    (fun rest rest' _ ih => ?_) (fun x y rest rest' hx hy hxy _ ih => ?_)
    fun c rest rest' hnone hnone' hc _ ih => ?_
  · exact .cons .nil .nil
  · rw [splitAll_append_token htoken.ne_nil, splitAll_append_token htoken.ne_nil]
    exact .cons .nil ih
  · rw [htoken.splitAll_word hx.chars, htoken.splitAll_word hy.chars]
    obtain ⟨part, parts, hparts⟩ := List.exists_cons_of_ne_nil (splitFrom_ne_nil token 0 rest)
    obtain ⟨part', parts', hparts'⟩ := List.exists_cons_of_ne_nil (splitFrom_ne_nil token 0 rest')
    rw [Text.splitAll, Text.splitAll, hparts, hparts'] at ih ⊢
    cases ih with
    | cons hpart hrest =>
      refine .cons ?_ hrest
      exact .of_pieces (.cons (.atom hxy) hpart)
        (hx.pieces_append (prefix_of_splitAll htoken.ne_nil hparts))
        (hy.pieces_append (prefix_of_splitAll htoken.ne_nil hparts'))
  · rw [splitAll_cons hnone, splitAll_cons hnone']
    obtain ⟨part, parts, hparts⟩ := List.exists_cons_of_ne_nil (splitFrom_ne_nil token 0 rest)
    obtain ⟨part', parts', hparts'⟩ := List.exists_cons_of_ne_nil (splitFrom_ne_nil token 0 rest')
    rw [Text.splitAll, Text.splitAll, hparts, hparts'] at ih ⊢
    cases ih with
    | cons hpart hrest =>
      exact .cons (.of_pieces (.cons (.mark c) hpart) (pieces_cons hc _) (pieces_cons hc _)) hrest

omit htoken in
theorem intercalate (htoken : IsFixed r token) {parts parts' : List Text}
    (h : List.Forall₂ (Respells r) parts parts') :
    Respells r (token.intercalate parts) (token.intercalate parts') := by
  induction h with
  | nil => exact .nil
  | @cons part part' parts parts' hpart hparts ih =>
    cases hparts with
    | nil => simpa [List.intercalate] using hpart
    | cons hnext hparts =>
      rw [List.intercalate_cons_cons, List.intercalate_cons_cons]
      exact htoken.respells_append hpart ih

/-- A token gives way to another one in a text as it does in the respelling. -/
theorem replaceAll {replacement : Text} (hreplacement : IsFixed r replacement)
    (h : Respells r text text') :
    Respells r (replaceAll token replacement text) (replaceAll token replacement text') :=
  intercalate hreplacement (h.splitAll htoken)

end Respells

/-! ### Occurrences -/

/-- The text before and after every occurrence of a token. -/
def sites (token text : Text) : List (Text × Text) :=
  (places token text).map fun place => (text.take place, text.drop (place + token.length))

theorem placesFrom_add (token : Text) (skip a b : Nat) (text : Text) :
    placesFrom token skip (a + b) text = (placesFrom token skip b text).map (a + ·) := by
  induction text generalizing skip b with
  | nil => simp [placesFrom]
  | cons c text ih =>
    cases skip with
    | succ skip =>
      rw [placesFrom, placesFrom, Nat.add_assoc]
      exact ih skip (b + 1)
    | zero =>
      rw [placesFrom, placesFrom, Nat.add_assoc, ih, ih]
      split <;> rfl

theorem placesFrom_length_append (token u : Text) (place : Nat) (text : Text) :
    placesFrom token u.length place (u ++ text) = placesFrom token 0 (place + u.length) text := by
  induction u generalizing place with
  | nil => rfl
  | cons c u ih =>
    rw [List.length_cons, List.cons_append, placesFrom, ih, Nat.add_assoc, Nat.add_comm 1]

/-- The occurrences behind a front of a text. -/
theorem map_placesFrom_length (token u text : Text) :
    (placesFrom token 0 u.length text).map
        (fun place => ((u ++ text).take place, (u ++ text).drop (place + token.length))) =
      (sites token text).map fun site => (u ++ site.1, site.2) := by
  rw [← Nat.add_zero u.length, placesFrom_add, List.map_map, sites, List.map_map]
  refine List.map_congr_left fun place _ => ?_
  simp only [Function.comp_apply, List.take_length_add_append, Nat.add_assoc,
    List.drop_length_add_append]

theorem sites_append_token {token : Text} (hne : token ≠ []) (rest : Text) :
    sites token (token ++ rest) =
      ([], rest) :: (sites token rest).map fun site => (token ++ site.1, site.2) := by
  have hmap := map_placesFrom_length token token rest
  obtain ⟨c, token, rfl⟩ := List.exists_cons_of_ne_nil hne
  have hstarts : startsWith (c :: token) (c :: (token ++ rest)) = true := by
    rw [startsWith, Option.isSome_iff_exists]
    exact ⟨rest, after?_eq_some_iff.mpr rfl⟩
  have hskip := placesFrom_length_append (c :: token) token 1 rest
  rw [Nat.add_comm] at hskip
  rw [sites, places, List.cons_append, placesFrom, if_pos hstarts, List.map_cons, ← hmap]
  refine congrArg₂ List.cons ?_ ?_
  · simp
  · exact congrArg (List.map _) hskip

theorem sites_cons {token text : Text} {c : Char} (h : after? token (c :: text) = none) :
    sites token (c :: text) = (sites token text).map fun site => (c :: site.1, site.2) := by
  have hstarts : startsWith token (c :: text) = false := by rw [startsWith, h, Option.isSome_none]
  rw [sites, places, placesFrom, if_neg (by simp [hstarts])]
  exact map_placesFrom_length token [c] text

theorem IsFixed.sites_word {token : Text} (h : IsFixed r token) {x : Text}
    (hx : ∀ c ∈ x, isIdentifierChar c = true) (rest : Text) :
    sites token (x ++ rest) = (sites token rest).map fun site => (x ++ site.1, site.2) := by
  induction x with
  | nil => exact (List.map_id _).symm
  | cons c x ih =>
    obtain ⟨hc, hx⟩ := List.forall_mem_cons.mp hx
    rw [List.cons_append, sites_cons (h.after?_of_isIdentifierChar hc _), ih hx, List.map_map]
    rfl

theorem eq_of_mem_sites {token text : Text} {site : Text × Text} (h : site ∈ sites token text) :
    text = site.1 ++ token ++ site.2 := by
  obtain ⟨place, hplace, rfl⟩ := List.mem_map.mp h
  obtain ⟨before, rest, rfl, rfl⟩ := exists_of_mem_places hplace
  simp [List.append_assoc]

/-- A token occurs in a text where it occurs in the respelling. -/
theorem Respells.sites {token text text' : Text} (htoken : IsFixed r token)
    (h : Respells r text text') :
    List.Forall₂ (fun site site' => Respells r site.1 site'.1 ∧ Respells r site.2 site'.2)
      (sites token text) (sites token text') := by
  have hbegins {text : Text} {site : Text × Text} (h : site ∈ Text.sites token text) :
      site.1 <+: text :=
    ⟨token ++ site.2, by rw [← List.append_assoc, ← eq_of_mem_sites h]⟩
  refine h.scan (motive := fun text text' => List.Forall₂ (fun site site' =>
      Respells r site.1 site'.1 ∧ Respells r site.2 site'.2) (Text.sites token text)
        (Text.sites token text')) htoken ?_
    (fun rest rest' hrest ih => ?_) (fun x y rest rest' hx hy hxy _ ih => ?_)
    fun c rest rest' hnone hnone' hc _ ih => ?_
  · exact .nil
  · rw [sites_append_token htoken.ne_nil, sites_append_token htoken.ne_nil]
    refine .cons ⟨.nil, hrest⟩ ?_
    rw [List.forall₂_map_left_iff, List.forall₂_map_right_iff]
    exact ih.imp fun site site' hsite => ⟨htoken.respells_append .nil hsite.1, hsite.2⟩
  · rw [htoken.sites_word hx.chars, htoken.sites_word hy.chars]
    rw [List.forall₂_map_left_iff, List.forall₂_map_right_iff]
    obtain ⟨hlength, hsites⟩ := List.forall₂_iff_zip.mp ih
    refine List.forall₂_iff_zip.mpr ⟨hlength, fun {site site'} hmem => ?_⟩
    obtain ⟨hsite, hsite'⟩ := List.of_mem_zip hmem
    exact ⟨.of_pieces (.cons (.atom hxy) (hsites hmem).1) (hx.pieces_append (hbegins hsite))
      (hy.pieces_append (hbegins hsite')), (hsites hmem).2⟩
  · rw [sites_cons hnone, sites_cons hnone', List.forall₂_map_left_iff, List.forall₂_map_right_iff]
    exact ih.imp fun site site' hsite => ⟨.of_pieces (.cons (.mark c) hsite.1) (pieces_cons hc _)
      (pieces_cons hc _), hsite.2⟩

/-! ### Places among the characters between words -/

/-- The number of characters between words. -/
def breaks (text : Text) : Nat :=
  text.countP fun c => !isIdentifierChar c

theorem breaks_eq_countP_pieces (text : Text) : breaks text = (pieces text).countP Piece.isMark := by
  induction text with
  | nil => rfl
  | cons c text ih =>
    rw [breaks, List.countP_cons, ← breaks, ih]
    cases hc : isIdentifierChar c with
    | false =>
      rw [pieces_cons hc, List.countP_cons]
      rfl
    | true =>
      rw [pieces, if_pos hc]
      rcases pieces text with - | ⟨- | x, us⟩ <;> rfl

/-- Respellings have as many characters between words. -/
theorem Respells.breaks_eq {text text' : Text} (h : Respells r text text') :
    breaks text = breaks text' := by
  rw [breaks_eq_countP_pieces, breaks_eq_countP_pieces]
  rw [Respells] at h
  generalize pieces text = us, pieces text' = vs at h
  induction h with
  | nil => rfl
  | cons hpq _ ih => cases hpq <;> simp [List.countP_cons, Piece.isMark, ih]

/-- What stands before a token is no longer than another front of the text if it has no more characters
between words. -/
theorem length_le_iff_breaks_le {text u v rest rest' token : Text} (htoken : IsFixed r token)
    (hu : text = u ++ token ++ rest) (hv : text = v ++ rest') :
    v.length ≤ u.length ↔ breaks v ≤ breaks u := by
  rw [hu, List.append_assoc] at hv
  rcases List.append_eq_append_iff.mp hv with ⟨w, rfl, hw⟩ | ⟨w, rfl, -⟩
  · rcases w with _ | ⟨c, w⟩
    · simp
    · -- the longer front has the first character of the token
      obtain ⟨d, token, rfl, hd⟩ := htoken.first
      obtain ⟨rfl, -⟩ := List.cons.inj hw
      simp only [breaks, List.length_append, List.length_cons, List.countP_append, hd, Bool.not_false,
        List.countP_cons_of_pos]
      omega
  · simp [breaks]

end Text

end Formula
