import Formula.Proofs.Compile.Bisimulation
import Formula.Proofs.Source.LeafOrder
import Formula.Proofs.Text.Respelling

/-!
# Building texts that differ in their words

Two texts without parentheses that differ in their words only have the same operators in the same
places, so they are split in the same way, into parts that differ in their words only. Where a word of
one text and the word in its place mean the same, the trees are the same. Only the names of marks must
not be among the words that change, for these show in the texts that are built.

## Main definitions

* `TreeBuilder.KeepsMarks`: a relation of words that leaves the names of marks alone.
* `TreeBuilder.SameMeaning`: tables in which related words mean the same.

## Main results

* `Markers.respells_mark`: marking the operators of texts that differ in their words.
* `TreeBuilder.respells_candidates`: the splits of such texts, in the same order.
* `TreeBuilder.SameMeaning.bisimulation`: such texts are taken apart alike.
-/

namespace Formula

open Text

/-- The names of marks are related to themselves and to nothing else. -/
def KeepsMarks (r : Text → Text → Prop) : Prop :=
  ∀ w ∈ Source.markerNames, (∀ y, r w y ↔ y = w) ∧ ∀ x, r x w ↔ x = w

namespace KeepsMarks

/-- The names of marks are left alone if they are none of the words that are changed, and come from
none of them. -/
theorem of_words {words : List Text} {r : Text → Text → Prop}
    (hwords : ∀ w ∈ Source.markerNames, w ∉ words)
    (hnew : ∀ x ∈ words, ∀ y, r x y → y ∉ Source.markerNames) :
    KeepsMarks fun x y => x ∈ Source.markerNames ∧ y = x ∨ x ∈ words ∧ r x y := by
  refine fun w hw => ⟨fun y => ⟨?_, fun heq => .inl ⟨hw, heq⟩⟩, fun x => ⟨?_, fun heq =>
    .inl ⟨heq ▸ hw, heq.symm⟩⟩⟩
  · rintro (⟨-, rfl⟩ | ⟨hmem, -⟩)
    · rfl
    · exact absurd hmem (hwords w hw)
  · rintro (⟨-, rfl⟩ | ⟨hmem, hr⟩)
    · rfl
    · exact absurd hw (hnew x hmem w hr)

variable {r : Text → Text → Prop} (h : KeepsMarks r)
include h

/-- A token is the same in both texts, and so is what stands for it when it is marked. -/
theorem isFixed {entry : Text × Text} (hentry : entry ∈ Markers.common.tokens) :
    IsFixed r entry.1 ∧ IsFixed r entry.2 := by
  obtain ⟨hne, hchars, -⟩ := Source.token_cases hentry
  have htoken : IsFixed r entry.1 := isFixed_of_forall hne fun c hc =>
    Text.isIdentifierChar_of_isOperatorChar (hchars c hc).1
  refine ⟨htoken, ?_⟩
  rcases Source.eq_or_mark_of_mem_tokens hentry with heq | ⟨-, -, w, hw, heq⟩
  · exact heq ▸ htoken
  · obtain ⟨hleft, hright⟩ := h w hw
    have hpieces : pieces w = [.atom w] := by
      have hall : (Source.markerNames.all fun w => pieces w == [.atom w]) = true := by decide
      exact eq_of_beq (List.all_eq_true.mp hall w hw)
    rw [heq]
    exact isFixed_enclosed (by decide) hpieces hleft hright

/-- The operators of two texts that differ in their words are marked alike. -/
theorem respells_mark {text text' : Text} (htext : Respells r text text') :
    Respells r (Markers.common.mark text) (Markers.common.mark text') := by
  have hfold (tokens : List (Text × Text)) (htokens : ∀ entry ∈ tokens, entry ∈ Markers.common.tokens)
      {text text' : Text} (htext : Respells r text text') :
      Respells r
        (tokens.foldl (fun text entry =>
          if entry.1 = entry.2 then text else Text.replaceAll entry.1 entry.2 text) text)
        (tokens.foldl (fun text entry =>
          if entry.1 = entry.2 then text else Text.replaceAll entry.1 entry.2 text) text') := by
    induction tokens generalizing text text' with
    | nil => exact htext
    | cons entry tokens ih =>
      obtain ⟨hentry, htokens⟩ := List.forall_mem_cons.mp htokens
      refine ih htokens ?_
      dsimp only
      split
      · exact htext
      · exact htext.replaceAll (h.isFixed hentry).1 (h.isFixed hentry).2
  exact hfold _ (fun _ h => h) htext

end KeepsMarks

/-- Sorting keeps two lists side by side if the order is the same in both. -/
theorem forall₂_mergeSort {α β : Type} {p : α → β → Prop} {le : α → α → Bool} {le' : β → β → Bool}
    {l : List α} {l' : List β} (h : List.Forall₂ p l l')
    (hle : ∀ a a' b b', p a a' → p b b' → le a b = le' a' b') :
    List.Forall₂ p (l.mergeSort le) (l'.mergeSort le') := by
  obtain ⟨hlength, hmem⟩ := List.forall₂_iff_zip.mp h
  have hfst : (l.zip l').map Prod.fst = l := List.map_fst_zip (Nat.le_of_eq hlength)
  have hsnd : (l.zip l').map Prod.snd = l' := List.map_snd_zip (Nat.le_of_eq hlength.symm)
  have hleft := List.map_mergeSort (r := fun a b => le a.1 b.1) (s := le) (f := Prod.fst)
    (l := l.zip l') fun _ _ _ _ => rfl
  have hright := List.map_mergeSort (r := fun a b => le a.1 b.1) (s := le') (f := Prod.snd)
    (l := l.zip l') fun a ha b hb => hle _ _ _ _ (hmem ha) (hmem hb)
  rw [hfst] at hleft
  rw [hsnd] at hright
  rw [← hleft, ← hright, List.forall₂_map_left_iff, List.forall₂_map_right_iff, List.forall₂_same]
  exact fun a ha => hmem (List.mem_mergeSort.mp ha)

namespace TreeBuilder

variable {style : Precedence} {ctx ctx' : Context} {r : Text → Text → Prop} {text text' : Text}

/-- A split of a text and the split in its place in the other text. -/
structure Split.SameSite (r : Text → Text → Prop) (text text' : Text) (s s' : Split) : Prop where
  op : s.op = s'.op
  tier : s.tier = s'.tier
  token : ∃ token, IsFixed r token ∧ s.width = token.length ∧ s'.width = token.length ∧
    text = text.take s.place ++ token ++ text.drop (s.place + s.width) ∧
    text' = text'.take s'.place ++ token ++ text'.drop (s'.place + s'.width)
  left : Respells r (text.take s.place) (text'.take s'.place)
  right : Respells r (text.drop (s.place + s.width)) (text'.drop (s'.place + s'.width))

theorem Split.SameSite.place_le {s s' q q' : Split} (hs : s.SameSite r text text' s')
    (hq : q.SameSite r text text' q') : q.place ≤ s.place ↔ q'.place ≤ s'.place := by
  obtain ⟨token, htoken, hwidth, hwidth', htext, htext'⟩ := hs.token
  obtain ⟨token₁, htoken₁, hwidth₁, hwidth₁', htext₁, htext₁'⟩ := hq.token
  have hlength {text token : Text} {s : Split} (htoken : IsFixed r token)
      (h : text = text.take s.place ++ token ++ text.drop (s.place + s.width)) :
      (text.take s.place).length = s.place := by
    have := congrArg List.length h
    have hpos := List.length_pos_iff.mpr htoken.ne_nil
    simp only [List.length_append, List.length_take, List.length_drop] at this ⊢
    omega
  have h := length_le_iff_breaks_le htoken htext (htext₁.trans (List.append_assoc ..))
  have h' := length_le_iff_breaks_le htoken htext' (htext₁'.trans (List.append_assoc ..))
  rw [hlength htoken htext, hlength htoken₁ htext₁] at h
  rw [hlength htoken htext', hlength htoken₁ htext₁'] at h'
  rw [h, h', hs.left.breaks_eq, hq.left.breaks_eq]

/-- A split is an inner one if it leaves something on both sides. -/
theorem Split.isInner_iff {s : Split} {token : Text} (hne : token ≠ [])
    (h : text = text.take s.place ++ token ++ text.drop (s.place + s.width)) :
    0 < s.place ∧ s.place + s.width < text.length ↔
      text.take s.place ≠ [] ∧ text.drop (s.place + s.width) ≠ [] := by
  have htext : text ≠ [] := by
    rintro rfl
    simp [hne] at h
  rw [ne_eq, ne_eq, List.take_eq_nil_iff, List.drop_eq_nil_iff, not_or, Nat.not_le, Nat.pos_iff_ne_zero]
  exact and_congr_left fun _ => ⟨fun h => ⟨h, htext⟩, And.left⟩

/-- Two texts that differ in their words are split at the same operators, in the same order. -/
theorem respells_candidates (hr : KeepsMarks r) (h : Respells r text text') :
    List.Forall₂ (Split.SameSite r text text') ((common style ctx).candidates text)
      ((common style ctx').candidates text') := by
  obtain ⟨hbinary, -⟩ := exists_token style ctx
  have hall : List.Forall₂ (Split.SameSite r text text')
      ((common style ctx).binary.flatMap fun entry => (places entry.2.2 text).map fun place =>
        { op := entry.1, tier := entry.2.1, place, width := entry.2.2.length : Split })
      ((common style ctx).binary.flatMap fun entry => (places entry.2.2 text').map fun place =>
        { op := entry.1, tier := entry.2.1, place, width := entry.2.2.length : Split }) := by
    refine List.rel_flatMap (R := fun a b => a = b ∧ a ∈ (common style ctx).binary)
      (List.forall₂_same.mpr fun entry hentry => ⟨rfl, hentry⟩) ?_
    rintro entry _ ⟨rfl, hentry⟩
    obtain ⟨token, htoken, heq⟩ := hbinary entry hentry
    have hfixed : IsFixed r entry.2.2 := heq ▸ (hr.isFixed htoken).2
    have hsites := h.sites hfixed
    rw [sites, sites, List.forall₂_map_left_iff, List.forall₂_map_right_iff] at hsites
    rw [List.forall₂_map_left_iff, List.forall₂_map_right_iff]
    obtain ⟨hlength, hmem⟩ := List.forall₂_iff_zip.mp hsites
    refine List.forall₂_iff_zip.mpr ⟨hlength, fun {place place'} hplaces => ?_⟩
    obtain ⟨hplace, hplace'⟩ := List.of_mem_zip hplaces
    obtain ⟨hleft, hright⟩ := hmem hplaces
    exact ⟨rfl, rfl, ⟨entry.2.2, hfixed, rfl, rfl, eq_of_mem_sites (List.mem_map_of_mem hplace),
      eq_of_mem_sites (List.mem_map_of_mem hplace')⟩, hleft, hright⟩
  rw [candidates, candidates]
  refine forall₂_mergeSort (List.rel_filter (fun s s' hs => ?_) hall) fun s s' q q' hs hq => ?_
  · -- a split leaves something on both sides of one text if it does so in the other
    obtain ⟨token, htoken, hwidth, hwidth', htext, htext'⟩ := hs.token
    simp only [decide_eq_true_eq, Bool.and_eq_true]
    rw [Split.isInner_iff htoken.ne_nil htext, Split.isInner_iff htoken.ne_nil htext', ne_eq,
      hs.left.eq_nil_iff, ne_eq, hs.right.eq_nil_iff]
  · rw [Split.precedes, Split.precedes, hs.tier, hq.tier]
    simp only [hs.place_le hq]

variable (style ctx ctx') in
/-- Unary operators are taken off the front of both texts. -/
theorem respells_leading (hr : KeepsMarks r) (h : Respells r text text') :
    List.Forall₂ (fun p p' => p.1 = p'.1 ∧ Respells r p.2 p'.2) ((common style ctx).leading text)
      ((common style ctx').leading text') := by
  obtain ⟨-, hunary⟩ := exists_token style ctx
  rw [leading, leading]
  refine List.rel_filterMap (R := fun a b => a = b ∧ a ∈ (common style ctx).unary) ?_
    (List.forall₂_same.mpr fun entry hentry => ⟨rfl, hentry⟩)
  rintro entry _ ⟨rfl, hentry⟩
  obtain ⟨token, htoken, heq⟩ := hunary entry hentry
  have hfixed : IsFixed r entry.2 := heq ▸ (hr.isFixed htoken).2
  dsimp only
  cases hafter : after? entry.2 text with
  | none =>
    rw [hfixed.after?_eq_none h hafter]
    exact .none
  | some rest =>
    obtain ⟨rest', hafter', hrest⟩ := hfixed.exists_of_after? h hafter
    rw [hafter']
    have hnil := hrest.eq_nil_iff
    cases rest with
    | nil =>
      rw [hnil.mp rfl]
      exact .none
    | cons c rest =>
      cases rest' with
      | nil => cases hnil.mpr rfl
      | cons c' rest' => exact .some ⟨rfl, hrest⟩

/-- What is left behind a unary operator belongs to the text. -/
theorem mem_of_mem_leading {t : TreeBuilder} {p : UnaryOp × Text} (h : p ∈ t.leading text) {c : Char}
    (hc : c ∈ p.2) : c ∈ text := by
  obtain ⟨⟨op, token⟩, -, hafter⟩ := List.mem_filterMap.mp h
  dsimp only at hafter
  split at hafter
  · cases hafter
  · cases hafter
  · next rest _ heq =>
    obtain rfl := Option.some.inj hafter
    rw [after?_eq_some_iff.mp heq]
    exact List.mem_append_right _ hc

/-! ### Tables -/

/-- Related words mean the same: they are the same operand, where a word of the second text may stand
for it, or neither of them is known. Texts with other characters are not known at all. -/
structure SameMeaning (r : Text → Text → Prop) (style : Precedence) (ctx ctx' : Context) : Prop where
  marks : KeepsMarks r
  main : ∃ text text', ctx.symbol? Context.mainName = some ⟨text, false⟩ ∧
    ctx'.symbol? Context.mainName = some ⟨text', false⟩ ∧ text ≠ [] ∧ '(' ∉ text ∧ Respells r text text'
  nameless : ∀ c ∈ [ctx, ctx'], c.constant? Context.mainName = none ∧
    Context.parameterIndex? c.params Context.mainName = none
  word : ∀ x y, r x y → (ctx.isKnown x = false ∧ ctx'.isKnown y = false) ∨
    ∃ last node node', (common style ctx').StandsFor y last ∧
      (common style ctx).analyze x = .operand node ∧ (common style ctx').analyze last = .operand node' ∧
        node.unlabeled = node'.unlabeled
  composite : ∀ c ∈ [ctx, ctx'], ∀ key, (∃ d ∈ key, isIdentifierChar d = false) → c.isKnown key = false

/-- A text without parentheses that is not known is split at its operators. -/
theorem analyze_of_unknown {key : Text} (hkey : ctx.isKnown key = false) (hopen : '(' ∉ key) :
    (common style ctx).analyze key = .applied key ((common style ctx).splitWays key) := by
  obtain ⟨hopening, -⟩ := Compiler.delimiters_common style
  have hcall : (common style ctx).splitCall? key = none :=
    splitCall?_eq_none (t := common style ctx) (c := '(') (by
      change '(' ∈ (Compiler.common style).tokens.opening
      rw [hopening]
      exact List.mem_singleton_self _) hopen
  simp only [Context.isKnown, Bool.or_eq_false_iff, Option.isSome_eq_false_iff,
    Option.isNone_iff_eq_none] at hkey
  rw [analyze, show (common style ctx).context = ctx from rfl, hkey.1.1, hkey.1.2, hkey.2, hcall]
  rfl

theorem analyze_mainName {text : Text} (hconstant : ctx.constant? Context.mainName = none)
    (hparameter : Context.parameterIndex? ctx.params Context.mainName = none)
    (hmain : ctx.symbol? Context.mainName = some ⟨text, false⟩) (hne : text ≠ []) :
    (common style ctx).analyze Context.mainName = .other text := by
  rw [analyze, show (common style ctx).context = ctx from rfl, hconstant, hparameter, hmain]
  exact if_neg hne

namespace SameMeaning

variable (h : SameMeaning r style ctx ctx')
include h

/-- Texts that differ in their words, and that are not known, are split into such texts. -/
theorem related_of_unknown {key key' : Text} (hrespells : Respells r key key') (hopen : '(' ∉ key)
    (hkey : ctx.isKnown key = false) (hkey' : ctx'.isKnown key' = false) :
    ((common style ctx).analyze key).Related (fun text text' => Respells r text text' ∧ '(' ∉ text)
      ((common style ctx').analyze key') := by
  have hopen' : '(' ∉ key' := fun hmem => hopen (hrespells.flip.mem_of_mem (by decide) hmem)
  rw [analyze_of_unknown hkey hopen, analyze_of_unknown hkey' hopen', splitWays, splitWays]
  refine .applied (List.rel_append ?_ ?_)
  · rw [List.forall₂_map_left_iff, List.forall₂_map_right_iff]
    refine (respells_candidates h.marks hrespells).imp fun s s' hs => ⟨congrArg Head.binary hs.op, ?_⟩
    exact .cons ⟨hs.left, fun hmem => hopen (List.mem_of_mem_take hmem)⟩
      (.cons ⟨hs.right, fun hmem => hopen (List.mem_of_mem_drop hmem)⟩ .nil)
  · rw [List.forall₂_map_left_iff, List.forall₂_map_right_iff]
    have hleading := respells_leading style ctx ctx' h.marks hrespells
    obtain ⟨hlength, hmem⟩ := List.forall₂_iff_zip.mp hleading
    refine List.forall₂_iff_zip.mpr ⟨hlength, fun {p p'} hp => ?_⟩
    refine ⟨congrArg Head.unary (hmem hp).1, .cons ⟨(hmem hp).2, fun hin => hopen ?_⟩ .nil⟩
    exact mem_of_mem_leading (List.of_mem_zip hp).1 hin

/-- Texts without parentheses that differ in their words are taken apart alike. -/
theorem bisimulation : Bisimulation (common style ctx) (common style ctx')
    fun text text' => Respells r text text' ∧ '(' ∉ text where
  registry := rfl
  step := by
    rintro key key' ⟨hrespells, hopen⟩
    by_cases hnil : key = []
    · obtain rfl := hrespells.eq_nil_iff.mp hnil
      subst hnil
      obtain ⟨text, text', hmain, hmain', hne, hopen, htext⟩ := h.main
      obtain ⟨hconstant, hparameter⟩ := h.nameless ctx (by simp)
      obtain ⟨hconstant', hparameter'⟩ := h.nameless ctx' (by simp)
      have hne' : text' ≠ [] := fun hnil => hne (htext.eq_nil_iff.mpr hnil)
      exact ⟨text', .step (analyze_mainName hconstant' hparameter' hmain' hne') (.refl _),
        .inl ⟨text, analyze_mainName hconstant hparameter hmain hne, htext, hopen⟩⟩
    by_cases hword : ∀ c ∈ key, isIdentifierChar c = true
    · have hpieces := hrespells
      rw [Respells, pieces_of_name hnil hword, List.forall₂_cons_left_iff] at hpieces
      obtain ⟨q, vs, hq, hvs, heq⟩ := hpieces
      cases hvs
      cases hq with
      | @atom _ y hkey =>
        obtain rfl : y = key' := by
          rw [← textAll_pieces key', heq]
          simp [Piece.text]
        rcases h.word key y hkey with ⟨hunknown, hunknown'⟩ | ⟨last, node, node', hstands, hoperands⟩
        · exact ⟨y, .refl _, .inr (h.related_of_unknown hrespells hopen hunknown hunknown')⟩
        · obtain ⟨hnode, hnode', hlabels⟩ := hoperands
          refine ⟨last, hstands, .inr ?_⟩
          rw [hnode, hnode']
          exact .operand hlabels
    · push Not at hword
      obtain ⟨c, hmem, hc⟩ := hword
      have hc := Bool.eq_false_of_not_eq_true hc
      exact ⟨key', .refl _, .inr (h.related_of_unknown hrespells hopen
        (h.composite ctx (by simp) key ⟨c, hmem, hc⟩)
        (h.composite ctx' (by simp) key' ⟨c, hrespells.mem_of_mem hc hmem, hc⟩))⟩

end SameMeaning

end TreeBuilder

end Formula
