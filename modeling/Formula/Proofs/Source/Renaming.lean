import Formula.Proofs.Source.Correspondence

/-!
# Renaming the parameters

In a text of words and operators the names of the parameters do not matter: with other names that are
not in use the text is recognized as well, and has the same values. Names of marks are in use
everywhere, and a name must not bring a number into the text. In texts with parentheses it may:
`(a)&b` is recognized, and `(a)&h1` is not.

## Main definitions

* `Text.renameWords`: a text with its words renamed.
* `Source.IsRenaming`: new names for the parameters of a text.

## Main results

* `Compiler.matches_renameWords`: renaming the parameters of a text of words and operators.
-/

namespace Formula

open Text

/-- The piece with its word renamed, if it is one. -/
def Piece.rename (rename : Text → Text) : Piece → Piece
  | .mark c => .mark c
  | .atom x => .atom (rename x)

namespace Text

variable {rename : Text → Text} {text : Text}

/-- The text with its words renamed. -/
def renameWords (rename : Text → Text) (text : Text) : Text :=
  Piece.textAll ((pieces text).map (Piece.rename rename))

theorem pieces_renameWords
    (h : ∀ w ∈ words text, rename w ≠ [] ∧ ∀ c ∈ rename w, isIdentifierChar c = true) :
    pieces (renameWords rename text) = (pieces text).map (Piece.rename rename) := by
  refine Piece.pieces_textAll (fun p hp => ?_) ?_
  · obtain ⟨q, hq, rfl⟩ := List.mem_map.mp hp
    cases q with
    | mark c => exact isProper_of_mem_pieces _ hq
    | atom x =>
      refine h x ?_
      rw [words_eq_atoms]
      exact List.mem_filterMap.mpr ⟨_, hq, rfl⟩
  · rw [List.isChain_map]
    refine (isChain_pieces text).imp fun p q hpq => ?_
    cases p <;> cases q <;> exact hpq

theorem words_renameWords
    (h : ∀ w ∈ words text, rename w ≠ [] ∧ ∀ c ∈ rename w, isIdentifierChar c = true) :
    words (renameWords rename text) = (words text).map rename := by
  rw [words_eq_atoms, words_eq_atoms, pieces_renameWords h]
  induction pieces text with
  | nil => rfl
  | cons p ps ih =>
    cases p with
    | mark c => exact ih
    | atom x => exact congrArg (rename x :: ·) ih

/-- The texts differ in their words only. -/
theorem respells_renameWords
    (h : ∀ w ∈ words text, rename w ≠ [] ∧ ∀ c ∈ rename w, isIdentifierChar c = true)
    {r : Text → Text → Prop} (hr : ∀ w ∈ words text, r w (rename w)) :
    Respells r text (renameWords rename text) := by
  rw [Respells, pieces_renameWords h, List.forall₂_map_right_iff, List.forall₂_same]
  intro p hp
  cases p with
  | mark c => exact .mark c
  | atom x =>
    refine .atom (hr x ?_)
    rw [words_eq_atoms]
    exact List.mem_filterMap.mpr ⟨_, hp, rfl⟩

end Text

/-- A plain name stands for no constant. -/
theorem Context.wordConstant?_of_isPlainName {name : Text} (h : isPlainName name = true) :
    wordConstant? name = none ∧ isIdentifier name = true := by
  cases name with
  | nil => cases h
  | cons c rest =>
    simp only [isPlainName, Bool.and_eq_true, Bool.not_eq_true', Option.isNone_iff_eq_none,
      List.all_eq_true] at h
    obtain ⟨⟨⟨hfirst, hrest⟩, hnamed⟩, hboolean⟩ := h
    have hlookup : (start []).constants.lookup (c :: rest) = none := by
      refine List.lookup_eq_none_iff.mpr fun entry hentry => ?_
      rw [bne_iff_ne, ne_eq]
      intro heq
      obtain ⟨named, hmem, rfl⟩ := List.mem_map.mp hentry
      refine absurd hnamed ?_
      rw [Bool.not_eq_false, List.contains_iff_mem]
      exact List.mem_map.mpr ⟨named, hmem, heq.symm⟩
    rw [wordConstant?, hlookup, Literal.ofGrammar?_name hfirst rest hrest, hboolean, isIdentifier,
      Bool.and_eq_true, List.all_eq_true]
    exact ⟨rfl, hfirst, fun d hd => isIdentifierChar_of_isWordChar (hrest d hd)⟩

/-- New names for the parameters of a source: plain names that are not in use, not even for marks. -/
structure Source.IsRenaming (rename : Text → Text) (source : Text) (names : List Text) : Prop where
  kept : ∀ w, w ∉ names → rename w = w
  plain : ∀ name ∈ names, isPlainName (rename name) = true
  new : ∀ name ∈ names, rename name ∉ words source ∧ rename name ∉ markerNames
  injective : ∀ a ∈ names, ∀ b ∈ names, rename a = rename b → a = b

namespace Source.IsRenaming

open Context

variable {rename : Text → Text} {source : Text} {names : List Text} (h : IsRenaming rename source names)
include h

theorem injective_words : ∀ a ∈ words source, ∀ b ∈ words source, rename a = rename b → a = b := by
  intro a ha b hb heq
  by_cases hanames : a ∈ names <;> by_cases hbnames : b ∈ names
  · exact h.injective a hanames b hbnames heq
  · rw [h.kept b hbnames] at heq
    exact absurd (heq ▸ hb) (h.new a hanames).1
  · rw [h.kept a hanames] at heq
    exact absurd (heq ▸ ha) (h.new b hbnames).1
  · rwa [h.kept a hanames, h.kept b hbnames] at heq

theorem wordConstant?_eq (hnames : ∀ name ∈ names, wordConstant? name = none) (w : Text) :
    wordConstant? (rename w) = wordConstant? w := by
  by_cases hw : w ∈ names
  · rw [hnames w hw, (wordConstant?_of_isPlainName (h.plain w hw)).1]
  · rw [h.kept w hw]

theorem isName {w : Text} (hw : w ∈ words source) :
    rename w ≠ [] ∧ ∀ c ∈ rename w, isIdentifierChar c = true := by
  by_cases hmem : w ∈ names
  · exact isIdentifierChar_of_isIdentifier (wordConstant?_of_isPlainName (h.plain w hmem)).2
  · rw [h.kept w hmem]
    exact ⟨ne_nil_of_mem_words hw, isIdentifierChar_of_mem_words hw⟩

theorem words_eq : words (renameWords rename source) = (words source).map rename :=
  words_renameWords fun _ hw => h.isName hw

theorem flat (hflat : Flat source) (hunnumbered : Unnumbered (renameWords rename source)) :
    Flat (renameWords rename source) := by
  have hrespells : Respells (fun _ _ => True) source (renameWords rename source) :=
    respells_renameWords (fun _ hw => h.isName hw) fun _ _ => trivial
  refine ⟨fun hnil => hflat.ne_nil (hrespells.eq_nil_iff.mpr hnil), fun c hc => ?_, hunnumbered⟩
  cases hword : isIdentifierChar c with
  | true => exact .inl rfl
  | false =>
    have hmem := hrespells.flip.mem_of_mem hword hc
    exact .inr ((hflat.chars c hmem).resolve_left (by simp [hword]))

theorem rename_not_mem_markerNames (hmarkers : ∀ w ∈ markerNames, w ∉ words source) {w : Text}
    (hw : w ∈ words source) : rename w ∉ markerNames := by
  by_cases hmem : w ∈ names
  · exact (h.new w hmem).2
  · rw [h.kept w hmem]
    exact fun hmarker => hmarkers w hmarker hw

theorem not_mem_words (hmarkers : ∀ w ∈ markerNames, w ∉ words source) {w : Text}
    (hw : w ∈ markerNames) : w ∉ words (renameWords rename source) := by
  rw [h.words_eq]
  intro hmem
  obtain ⟨v, hv, rfl⟩ := List.mem_map.mp hmem
  exact h.rename_not_mem_markerNames hmarkers hv hw

/-- Renaming leaves the names of marks alone. -/
theorem keepsMarks (hmarkers : ∀ w ∈ markerNames, w ∉ words source) :
    KeepsMarks fun x y => x ∈ markerNames ∧ y = x ∨ x ∈ words source ∧ y = rename x :=
  .of_words hmarkers fun _ hmem _ heq => heq ▸ h.rename_not_mem_markerNames hmarkers hmem

end Source.IsRenaming

/-- The names of the parameters of a text of words and operators do not matter: with new names it is
recognized as well, with the same values, unless it is given up. -/
theorem Compiler.matches_renameWords (style : Precedence) {source : Text} {rename : Text → Text}
    (hflat : Source.Flat source) (hmarkers : ∀ w ∈ Source.markerNames, w ∉ words source)
    (hrecognized : ((common style).expression (String.ofList source)).isRecognized = true)
    (hrename : Source.IsRenaming rename source
      (((common style).expression (String.ofList source)).parameters.map fun p => p.name.toList))
    (hunnumbered : Source.Unnumbered (renameWords rename source))
    (hcomplex : ((common style).compile (renameWords rename source) false).outcome ≠ .error .tooComplex) :
    ((common style).expression (String.ofList source)).Matches rename
      ((common style).expression (String.ofList (renameWords rename source))) := by
  obtain ⟨ctx, hctx⟩ := hflat.exists_tables hrecognized
  have hnames (name : Text)
      (hname : name ∈ ((common style).expression (String.ofList source)).parameters.map
        fun p => p.name.toList) : Context.wordConstant? name = none := by
    rw [hctx.names hrecognized] at hname
    exact (hctx.knows.mem_names_iff.mp hname).2
  have hflat' := hrename.flat hflat hunnumbered
  obtain ⟨ctx', hctx'⟩ := hflat'.exists_tables_of_words style fun w hw => by
    rw [hrename.words_eq] at hw
    obtain ⟨v, hv, rfl⟩ := List.mem_map.mp hw
    rw [hrename.wordConstant?_eq hnames]
    by_cases hmem : v ∈ ((common style).expression (String.ofList source)).parameters.map
      fun p => p.name.toList
    · exact .inr (Context.wordConstant?_of_isPlainName (hrename.plain v hmem)).2
    · rw [hctx.names hrecognized, hctx.knows.mem_names_iff, not_and] at hmem
      exact .inl (Option.isSome_iff_ne_none.mpr (hmem hv))
  have hcorresponds : Context.Corresponds rename source (renameWords rename source) ctx ctx' :=
    ⟨hctx.knows, hctx'.knows, hctx.generated, hctx'.generated, hrename.words_eq,
      hrename.injective_words, fun w _ => hrename.wordConstant?_eq hnames w⟩
  have hkeeps := hrename.keepsMarks hmarkers
  refine matches_of_corresponds hcorresponds (hcorresponds.sameMeaning hkeeps
    (fun w hw => ⟨hmarkers w hw, hrename.not_mem_words hmarkers hw⟩) (fun x y hxy => ?_)
    ⟨_, _, hctx.symbol?_mainName, hctx'.symbol?_mainName, hflat.mark_ne_nil, hflat.not_mem_mark, ?_⟩)
    hctx.outcome hctx'.outcome hctx.cancelled hctx'.cancelled hrecognized hcomplex
  · exact hxy.imp_right fun ⟨hx, heq⟩ => ⟨hx, heq ▸ .refl _⟩
  · exact hkeeps.respells_mark
      (respells_renameWords (fun _ hw => hrename.isName hw) fun w hw => .inr ⟨hw, rfl⟩)

/-- The name `x` is changed to `y`. -/
def Source.letterRenaming (w : Text) : Text :=
  if w = ['x'] then ['y'] else w

/-- The text `x` may as well be `y`. -/
theorem Compiler.matches_renameWords_letter :
    ((common .mathematical).expression (String.ofList ['x'])).Matches Source.letterRenaming
      ((common .mathematical).expression
        (String.ofList (renameWords Source.letterRenaming ['x']))) := by
  have hrenamed : renameWords Source.letterRenaming ['x'] = ['y'] := by decide
  refine matches_renameWords .mathematical (Source.flat_letter (.inl rfl)) (by decide)
    (isRecognized_letter (.inl rfl)) ?_ ?_ ?_
  · rw [names_letter (.inl rfl)]
    exact ⟨fun w hw => if_neg (by simpa using hw), by decide, by decide, by simp⟩
  · exact hrenamed ▸ (Source.flat_letter (.inr rfl)).unnumbered
  · rw [hrenamed, outcome_letter (.inr rfl)]
    simp

end Formula
