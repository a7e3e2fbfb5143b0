import Mathlib.Data.List.Chain
import Formula.Compile.Calls
import Formula.Proofs.Compile.Atoms
import Formula.Proofs.Text.Nesting
import Formula.Proofs.Text.Words

/-!
# The pieces of a text

A text is a sequence of words and of the single characters between them. An operand starts with a
word, a quotation mark or an open bracket, and ends with a word, a quotation mark or a close
bracket. In a text that is laid out, no operand starts where another one has just ended, with one
exception: the name of a function may stand before an open parenthesis. Where something stands that
starts and ends as an operand does, there is room for a name.

## Main definitions

* `Text.pieces`, `Piece.atoms`: the pieces of a text, and the words among pieces.
* `Text.Laid`: no operand directly follows another one.
* `Text.Gap`: an operand can stand between two texts.

## Main results

* `Text.pieces_append_cons`, `Text.pieces_isolated`: the pieces around a character or a word.
* `Text.words_eq_atoms`: the words of a text are its atoms.
* `Text.Laid.bracketed`, `Text.Gap.laid`: what stands in brackets can give way to a name.
-/

namespace Formula

namespace Text

/-! ### Pieces -/

/-- The words of a text and the characters between them. -/
def pieces : Text → List Piece
  | [] => []
  | c :: text =>
    if isIdentifierChar c then
      match pieces text with
      | .atom x :: rest => .atom (c :: x) :: rest
      | rest => .atom [c] :: rest
    else .mark c :: pieces text

theorem pieces_cons {c : Char} (h : isIdentifierChar c = false) (text : Text) :
    pieces (c :: text) = .mark c :: pieces text := by
  rw [pieces, if_neg (by simp [h])]

theorem pieces_append_cons {c : Char} (h : isIdentifierChar c = false) (a b : Text) :
    pieces (a ++ c :: b) = pieces a ++ .mark c :: pieces b := by
  induction a with
  | nil => exact pieces_cons h b
  | cons d a ih =>
    rw [List.cons_append, pieces, pieces]
    split
    · rw [ih]
      rcases pieces a with - | ⟨- | x, rest⟩ <;> rfl
    · rw [ih, List.cons_append]

theorem textAll_pieces (text : Text) : Piece.textAll (pieces text) = text := by
  induction text with
  | nil => rfl
  | cons c text ih =>
    rw [pieces]
    split
    · split
      · next x rest heq =>
        rw [heq] at ih
        rw [← ih]
        rfl
      · rw [Piece.textAll_cons, ih]
        rfl
    · rw [Piece.textAll_cons, ih]
      rfl

theorem pieces_of_name {x : Text} (hne : x ≠ []) (hx : ∀ c ∈ x, isIdentifierChar c = true) :
    pieces x = [.atom x] := by
  induction x with
  | nil => exact absurd rfl hne
  | cons c x ih =>
    obtain ⟨hc, hx⟩ := List.forall_mem_cons.mp hx
    rw [pieces, if_pos hc]
    by_cases hnil : x = []
    · rw [hnil]
      rfl
    · rw [ih hnil hx]

/-- A name that stands alone is a piece. -/
theorem pieces_isolated {before x rest : Text} (hne : x ≠ [])
    (hx : ∀ c ∈ x, isIdentifierChar c = true) (h : IsolatedBy before rest) :
    pieces (before ++ x ++ rest) = pieces before ++ .atom x :: pieces rest := by
  have hright : pieces (x ++ rest) = .atom x :: pieces rest := by
    cases rest with
    | nil => rw [List.append_nil, pieces_of_name hne hx, pieces]
    | cons d rest =>
      have hd : isIdentifierChar d = false := h.right d rfl
      rw [pieces_append_cons hd, pieces_of_name hne hx, pieces_cons hd]
      rfl
  rw [List.append_assoc]
  obtain rfl | ⟨before, c, rfl⟩ := List.eq_nil_or_concat before
  · exact hright
  · have hc : isIdentifierChar c = false := h.left c (by simp)
    rw [List.concat_eq_append, List.append_assoc, List.singleton_append, pieces_append_cons hc,
      pieces_append_cons hc, hright, pieces, List.append_assoc]
    rfl

end Text

namespace Piece

/-- A word that is not empty, or a character that is none of names. -/
def IsProper : Piece → Prop
  | mark c => Text.isIdentifierChar c = false
  | atom x => x ≠ [] ∧ ∀ c ∈ x, Text.isIdentifierChar c = true

/-- Whether a piece is a character between words. -/
def isMark : Piece → Bool
  | mark _ => true
  | atom _ => false

/-- Proper pieces without two words side by side are the pieces of their text. -/
theorem pieces_textAll {pieces : List Piece} (hproper : ∀ p ∈ pieces, p.IsProper)
    (hapart : pieces.IsChain fun a b => a.isMark = true ∨ b.isMark = true) :
    Text.pieces (textAll pieces) = pieces := by
  induction pieces with
  | nil => rfl
  | cons p pieces ih =>
    obtain ⟨hp, hproper'⟩ := List.forall_mem_cons.mp hproper
    obtain ⟨hnext, hapart⟩ := List.isChain_cons.mp hapart
    have hrest := ih hproper' hapart
    cases p with
    | mark c => rw [textAll_cons, text, List.singleton_append, Text.pieces_cons hp, hrest]
    | atom x =>
      have hisolated : Text.IsolatedBy [] (textAll pieces) := by
        refine ⟨by simp, fun c hc => ?_⟩
        cases pieces with
        | nil => cases hc
        | cons q pieces =>
          cases q with
          | atom y => exact absurd (hnext _ rfl) (by simp [isMark])
          | mark d =>
            obtain rfl : d = c := by simpa [text] using hc
            exact hproper' (mark d) (List.mem_cons_self ..)
      have := Text.pieces_isolated hp.1 hp.2 hisolated
      rw [List.nil_append, hrest] at this
      exact this

/-- The words among pieces. -/
def atoms (pieces : List Piece) : List Text :=
  pieces.filterMap fun
    | atom x => some x
    | mark _ => none

@[simp]
theorem atoms_nil : atoms [] = [] := rfl

@[simp]
theorem atoms_mark (c : Char) (pieces : List Piece) : atoms (mark c :: pieces) = atoms pieces := rfl

@[simp]
theorem atoms_atom (x : Text) (pieces : List Piece) :
    atoms (atom x :: pieces) = x :: atoms pieces := rfl

@[simp]
theorem atoms_append (a b : List Piece) : atoms (a ++ b) = atoms a ++ atoms b :=
  List.filterMap_append ..

end Piece

namespace Text

/-- Texts that do not touch in a word have their pieces one after the other. -/
theorem pieces_append {a b : Text} (h : (∀ c ∈ a.getLast?, isIdentifierChar c = false) ∨
    ∀ c ∈ b.head?, isIdentifierChar c = false) : pieces (a ++ b) = pieces a ++ pieces b := by
  rcases h with h | h
  · obtain rfl | ⟨a, c, rfl⟩ := List.eq_nil_or_concat a
    · rfl
    · have hc : isIdentifierChar c = false := h c (by simp)
      rw [List.concat_eq_append, List.append_assoc, List.singleton_append, pieces_append_cons hc,
        pieces_append_cons hc, List.append_assoc]
      rfl
  · cases b with
    | nil => simp [pieces]
    | cons c b =>
      have hc : isIdentifierChar c = false := h c rfl
      rw [pieces_append_cons hc, pieces_cons hc]

theorem exists_atom_of_head? {text : Text} {c : Char} (hc : c ∈ text.head?)
    (h : isIdentifierChar c = true) : ∃ x, (pieces text).head? = some (.atom x) := by
  cases text with
  | nil => cases hc
  | cons d text =>
    obtain rfl : d = c := by simpa using hc
    rw [pieces, if_pos h]
    split <;> exact ⟨_, rfl⟩

theorem isProper_of_mem_pieces {text : Text} : ∀ p ∈ pieces text, p.IsProper := by
  induction text with
  | nil => simp [pieces]
  | cons c text ih =>
    rw [pieces]
    split
    · next hc =>
      split
      · next x rest heq =>
        rw [heq] at ih
        obtain ⟨hx, hrest⟩ := List.forall_mem_cons.mp ih
        exact List.forall_mem_cons.mpr
          ⟨⟨List.cons_ne_nil _ _, List.forall_mem_cons.mpr ⟨hc, hx.2⟩⟩, hrest⟩
      · exact List.forall_mem_cons.mpr ⟨⟨by simp, by simpa using hc⟩, ih⟩
    · next hc => exact List.forall_mem_cons.mpr ⟨Bool.eq_false_of_not_eq_true hc, ih⟩

theorem isChain_pieces (text : Text) :
    (pieces text).IsChain fun a b => a.isMark = true ∨ b.isMark = true := by
  induction text with
  | nil => exact .nil
  | cons c text ih =>
    rw [pieces]
    split
    · split
      · next x rest heq =>
        rw [heq, List.isChain_cons] at ih
        exact List.isChain_cons.mpr ih
      · next hatom =>
        refine List.isChain_cons.mpr ⟨fun q hq => ?_, ih⟩
        cases q with
        | mark d => exact .inr rfl
        | atom x =>
          obtain ⟨rest, hrest⟩ := List.head?_eq_some_iff.mp hq
          exact absurd hrest (hatom x rest)
    · exact List.isChain_cons.mpr ⟨fun q _ => .inl rfl, ih⟩

/-- A text that is cut between its pieces is cut into texts with these pieces. -/
theorem pieces_split {text : Text} {u v : List Piece} (h : pieces text = u ++ v) :
    text = Piece.textAll u ++ Piece.textAll v ∧ pieces (Piece.textAll u) = u ∧
      pieces (Piece.textAll v) = v := by
  have hproper : ∀ p ∈ u ++ v, p.IsProper := h ▸ isProper_of_mem_pieces
  obtain ⟨hu, hv, -⟩ := List.isChain_append.mp (h ▸ isChain_pieces text)
  refine ⟨?_, Piece.pieces_textAll (fun p hp => hproper p (List.mem_append_left _ hp)) hu,
    Piece.pieces_textAll (fun p hp => hproper p (List.mem_append_right _ hp)) hv⟩
  rw [← Piece.textAll_append, ← h, textAll_pieces]

/-- The words of a text are its atoms. -/
theorem words_eq_atoms (text : Text) : words text = Piece.atoms (pieces text) := by
  induction hlen : text.length using Nat.strongRecOn generalizing text with
  | _ n ih =>
    have hrun : ∀ c ∈ text.takeWhile isIdentifierChar, isIdentifierChar c = true :=
      List.all_eq_true.mp List.all_takeWhile
    have hsplit := (List.takeWhile_append_dropWhile (p := isIdentifierChar) (l := text)).symm
    generalize text.takeWhile isIdentifierChar = run at hrun hsplit
    have hwords : words run = Piece.atoms (pieces run) := by
      by_cases hne : run = []
      · rw [hne]
        rfl
      · rw [words_of_name hne hrun, pieces_of_name hne hrun]
        rfl
    cases htail : text.dropWhile isIdentifierChar with
    | nil => rw [hsplit, htail, List.append_nil, hwords]
    | cons d tail =>
      have hd : isIdentifierChar d = false := by
        have := List.head?_dropWhile_not isIdentifierChar text
        rw [htail] at this
        simpa using this
      have hshort : tail.length < n := by
        rw [← hlen, hsplit, htail, List.length_append, List.length_cons]
        omega
      rw [hsplit, htail, words_append_cons hd, pieces_append_cons hd, Piece.atoms_append,
        Piece.atoms_mark, hwords, ih tail.length hshort tail rfl]

/-- Texts that do not touch in a word have their words one after the other. -/
theorem words_append {a b : Text} (h : (∀ c ∈ a.getLast?, isIdentifierChar c = false) ∨
    ∀ c ∈ b.head?, isIdentifierChar c = false) : words (a ++ b) = words a ++ words b := by
  rw [words_eq_atoms, words_eq_atoms, words_eq_atoms, pieces_append h, Piece.atoms_append]

end Text

/-! ### Operands side by side -/

namespace Piece

/-- Whether an operand can end with a piece. -/
def ends : Piece → Bool
  | mark c => c == '"' || c == ')' || c == ']'
  | atom _ => true

/-- Whether an operand can start with a piece. -/
def starts : Piece → Bool
  | mark c => c == '"' || c == '(' || c == '['
  | atom _ => true

/-- Whether two pieces are the name of a function and the open parenthesis of its call. -/
def opensCall : Piece → Piece → Bool
  | atom x, mark c => c == '(' && isFunctionName x
  | _, _ => false

/-- Whether a piece may stand before another one: no operand follows another one, except that a call
may be allowed to open. -/
def mayPrecede (calls : Bool) (a b : Piece) : Bool :=
  !(a.ends && b.starts) || calls && opensCall a b

theorem ends_or_starts {calls : Bool} {a b : Piece} (h : mayPrecede calls a b = true) :
    a.ends = false ∨ b.starts = false ∨ calls = true ∧ opensCall a b = true := by
  rw [mayPrecede, Bool.or_eq_true, Bool.not_eq_true', Bool.and_eq_false_iff,
    Bool.and_eq_true] at h
  tauto

end Piece

namespace Text

/-- No operand directly follows another one; calls may be allowed to open. -/
def Laid (calls : Bool) (text : Text) : Prop :=
  (pieces text).IsChain fun a b => Piece.mayPrecede calls a b = true

instance (calls : Bool) (text : Text) : Decidable (Laid calls text) :=
  inferInstanceAs (Decidable (List.IsChain _ _))

theorem Laid.mono {text : Text} (h : Laid false text) : Laid true text :=
  List.IsChain.imp (fun a b hab => by
    rw [Piece.mayPrecede, Bool.false_and, Bool.or_false] at hab
    rw [Piece.mayPrecede, hab, Bool.true_or]) h

/-- A text around a character is laid out if the texts on its two sides are and the character fits
between them. -/
theorem laid_append_cons {calls : Bool} {c : Char} (hc : isIdentifierChar c = false) {a b : Text} :
    Laid calls (a ++ c :: b) ↔ Laid calls a ∧ Laid calls b ∧
      (∀ p ∈ (pieces a).getLast?, Piece.mayPrecede calls p (.mark c) = true) ∧
        ∀ p ∈ (pieces b).head?, Piece.mayPrecede calls (.mark c) p = true := by
  rw [Laid, pieces_append_cons hc, List.isChain_append, List.isChain_cons]
  simp only [List.head?_cons, Option.mem_def, Option.some.injEq, forall_eq']
  tauto

/-- An operand can stand between two texts. -/
structure Gap (before rest : Text) : Prop where
  left : ∀ a ∈ (pieces before).getLast?, a.ends = false
  right : ∀ b ∈ (pieces rest).head?, b.starts = false

namespace Gap

variable {before rest : Text}

theorem isolatedBy (h : Gap before rest) : IsolatedBy before rest := by
  constructor
  · intro c hc
    obtain hnil | ⟨u, p, hu⟩ := List.eq_nil_or_concat (pieces before)
    · rw [← textAll_pieces before, hnil] at hc
      cases hc
    · rw [List.concat_eq_append] at hu
      cases p with
      | atom x => exact absurd (h.left (.atom x) (by simp [hu])) (by simp [Piece.ends])
      | mark d =>
        have hd := isProper_of_mem_pieces (.mark d) (hu ▸ List.mem_append_right u (by simp))
        rw [← textAll_pieces before, hu, Piece.textAll_append] at hc
        obtain rfl : d = c := by simpa [Piece.text] using hc
        exact hd
  · intro c hc
    cases hpieces : pieces rest with
    | nil =>
      rw [← textAll_pieces rest, hpieces] at hc
      cases hc
    | cons p v =>
      cases p with
      | atom x => exact absurd (h.right (.atom x) (by simp [hpieces])) (by simp [Piece.starts])
      | mark d =>
        have hd := isProper_of_mem_pieces (.mark d) (hpieces ▸ List.mem_cons_self ..)
        rw [← textAll_pieces rest, hpieces, Piece.textAll_cons] at hc
        obtain rfl : d = c := by simpa [Piece.text] using hc
        exact hd

theorem pieces_append (h : Gap before rest) (inner : Text) :
    pieces (before ++ inner ++ rest) = pieces before ++ (pieces inner ++ pieces rest) := by
  rw [List.append_assoc, Text.pieces_append (.inl h.isolatedBy.left),
    Text.pieces_append (.inr h.isolatedBy.right)]

theorem words_append (h : Gap before rest) (inner : Text) :
    words (before ++ inner ++ rest) = words before ++ (words inner ++ words rest) := by
  simp only [words_eq_atoms, h.pieces_append, Piece.atoms_append]

/-- A text in a gap. -/
theorem laid_append (h : Gap before rest) {calls : Bool} {inner : Text} (hbefore : Laid calls before)
    (hinner : Laid calls inner) (hrest : Laid calls rest) : Laid calls (before ++ inner ++ rest) := by
  have hright (a b : Piece) (hb : b ∈ (pieces rest).head?) : Piece.mayPrecede calls a b = true := by
    rw [Piece.mayPrecede, h.right b hb, Bool.and_false]
    rfl
  have hleft (a b : Piece) (ha : a ∈ (pieces before).getLast?) :
      Piece.mayPrecede calls a b = true := by
    rw [Piece.mayPrecede, h.left a ha, Bool.false_and]
    rfl
  rw [Laid, h.pieces_append]
  exact List.isChain_append.mpr ⟨hbefore,
    List.isChain_append.mpr ⟨hinner, hrest, fun a _ b hb => hright a b hb⟩,
    fun a ha b _ => hleft a b ha⟩

/-- A name in a gap. -/
theorem laid (h : Gap before rest) {calls : Bool} (hbefore : Laid calls before)
    (hrest : Laid calls rest) {x : Text} (hne : x ≠ []) (hx : ∀ c ∈ x, isIdentifierChar c = true) :
    Laid calls (before ++ x ++ rest) := by
  refine h.laid_append hbefore ?_ hrest
  rw [Laid, pieces_of_name hne hx]
  exact List.isChain_singleton _

end Gap

/-- What stands in brackets can give way to an operand. -/
theorem Laid.bracketed {calls : Bool} {before inner rest : Text} {l r : Char}
    (h : Laid calls (before ++ l :: (inner ++ r :: rest))) (hl : isIdentifierChar l = false)
    (hr : isIdentifierChar r = false) (hstarts : Piece.starts (.mark l) = true)
    (hends : Piece.ends (.mark r) = true) (hcall : calls = true → l ≠ '(') :
    Laid calls before ∧ Laid calls inner ∧ Laid calls rest ∧ Gap before rest := by
  obtain ⟨hbefore, hinner, hleft, -⟩ := (laid_append_cons hl).mp h
  obtain ⟨hinner, hrest, -, hright⟩ := (laid_append_cons hr).mp hinner
  refine ⟨hbefore, hinner, hrest, fun a ha => ?_, fun b hb => ?_⟩
  · rcases Piece.ends_or_starts (hleft a ha) with hends | hstarts' | ⟨hcalls, hopens⟩
    · exact hends
    · rw [hstarts] at hstarts'
      cases hstarts'
    · cases a with
      | mark c => cases hopens
      | atom x => exact absurd (eq_of_beq (Bool.and_eq_true_iff.mp hopens).1) (hcall hcalls)
  · rcases Piece.ends_or_starts (hright b hb) with hends' | hstarts | ⟨-, hopens⟩
    · rw [hends] at hends'
      cases hends'
    · exact hstarts
    · cases hopens

end Text

/-! ### Calls -/

/-- The spellings of all functions. -/
def Function.allSpellings : List Text :=
  Function.all.flatMap fun f => f.spellings.map String.toList

theorem mem_allSpellings_of_isFunctionName {x : Text} (h : isFunctionName x = true) :
    x ∈ Function.allSpellings := by
  obtain ⟨f, hf, hx⟩ := List.any_eq_true.mp (Bool.and_eq_true_iff.mp h).2
  refine List.mem_flatMap.mpr ⟨f, hf, List.mem_map.mpr ⟨_, ?_, String.toList_ofList ..⟩⟩
  exact List.contains_iff_mem.mp hx

theorem isWordChar_of_isFunctionName {x : Text} (h : isFunctionName x = true) :
    x ≠ [] ∧ ∀ c ∈ x, Text.isWordChar c = true := by
  have hall : (Function.allSpellings.all fun x => !x.isEmpty && x.all Text.isWordChar) = true := by
    decide
  have hx := List.all_eq_true.mp hall x (mem_allSpellings_of_isFunctionName h)
  rw [Bool.and_eq_true, Bool.not_eq_true', List.isEmpty_eq_false_iff, List.all_eq_true] at hx
  exact hx

namespace Text

theorem exists_pieces_of_isWordChar {name : Text} (h : name ≠ [] ∧ ∀ c ∈ name, isWordChar c = true)
    (head : Text) : ∃ u y, pieces (head ++ name) = u ++ [.atom y] := by
  obtain hnil | ⟨u, p, hu⟩ := List.eq_nil_or_concat (pieces (head ++ name))
  · have := textAll_pieces (head ++ name)
    rw [hnil] at this
    exact absurd (List.append_eq_nil_iff.mp this.symm).2 h.1
  · rw [List.concat_eq_append] at hu
    cases p with
    | atom y => exact ⟨u, y, hu⟩
    | mark d =>
      have hd := isProper_of_mem_pieces (.mark d) (hu ▸ List.mem_append_right u (by simp))
      have hlast : (head ++ name).getLast? = some d := by
        rw [← textAll_pieces (head ++ name), hu, Piece.textAll_append]
        simp [Piece.text]
      rw [List.getLast?_append_of_ne_nil _ h.1] at hlast
      have hword := isIdentifierChar_of_isWordChar (h.2 d (List.mem_of_getLast? hlast))
      rw [hd] at hword
      cases hword

/-- The last word of a text is its last piece. -/
theorem lastWord_of_pieces {text y : Text} {u : List Piece} (h : pieces text = u ++ [.atom y])
    (hy : ∀ c ∈ y, isWordChar c = true) : lastWord text = (Piece.textAll u, y) := by
  obtain ⟨htext, -, -⟩ := pieces_split h
  rw [htext, Piece.textAll_cons, Piece.textAll_nil, List.append_nil, Piece.text,
    lastWord_append_left (.inl fun c hc => ?_), lastWord_word hy, List.append_nil]
  obtain rfl | ⟨u, p, rfl⟩ := List.eq_nil_or_concat u
  · cases hc
  · rw [List.concat_eq_append] at h hc
    have hmark := (List.isChain_append.mp (h ▸ isChain_pieces text)).2.2 p (by simp) (.atom y) rfl
    cases p with
    | atom x => simp [Piece.isMark] at hmark
    | mark d =>
      have hmem : .mark d ∈ pieces text := by simp [h]
      have hd := isProper_of_mem_pieces (.mark d) hmem
      obtain rfl : d = c := by simpa [Piece.text] using hc
      by_contra hword
      have := isIdentifierChar_of_isWordChar (Bool.eq_true_of_not_eq_false hword)
      rw [show isIdentifierChar d = false from hd] at this
      cases this

/-- Where a text is laid out, the name before the open parenthesis of a call is a word, and the call
can give way to a name. -/
theorem Laid.call {head name inner rest : Text} (hname : isFunctionName name = true)
    (hword : lastWord (head ++ name) = (head, name))
    (h : Laid true (head ++ name ++ '(' :: (inner ++ ')' :: rest))) :
    Laid true head ∧ Laid true inner ∧ Laid true rest ∧ Gap head rest := by
  obtain ⟨hbefore, hinner, hleft, -⟩ := (laid_append_cons (by decide)).mp h
  obtain ⟨hinner, hrest, -, hright⟩ := (laid_append_cons (by decide)).mp hinner
  have hends : ∀ b ∈ (pieces rest).head?, b.starts = false := fun b hb => by
    rcases Piece.ends_or_starts (hright b hb) with hends | hstarts | ⟨-, hopens⟩
    · cases hends
    · exact hstarts
    · cases hopens
  obtain ⟨u, y, hu⟩ := exists_pieces_of_isWordChar (isWordChar_of_isFunctionName hname) head
  -- the whole word before the parenthesis is the name of a function, and so is its last part
  have hy : isFunctionName y = true := by
    rcases Piece.ends_or_starts (hleft (.atom y) (by simp [hu])) with hends | hstarts | ⟨-, hopens⟩
    · cases hends
    · cases hstarts
    · simpa [Piece.opensCall] using hopens
  obtain ⟨htext, hpieces, -⟩ := pieces_split hu
  rw [Laid, hu] at hbefore
  obtain ⟨hchain, -, hlast⟩ := List.isChain_append.mp hbefore
  have hgap : ∀ a ∈ u.getLast?, a.ends = false := fun a ha => by
    rcases Piece.ends_or_starts (hlast a ha (.atom y) rfl) with hends | hstarts | ⟨-, hopens⟩
    · exact hends
    · cases hstarts
    · cases a <;> cases hopens
  have hparts : (Piece.textAll u, y) = (head, name) := by
    rw [← hword, lastWord_of_pieces hu (isWordChar_of_isFunctionName hy).2]
  obtain ⟨rfl, rfl⟩ := Prod.mk.inj hparts
  refine ⟨?_, hinner, hrest, hpieces.symm ▸ hgap, hends⟩
  rw [Laid, hpieces]
  exact hchain

end Text

end Formula
