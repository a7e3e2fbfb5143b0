import Formula.Proofs.Text.Words

/-!
# The order of the parameters

Parameters are sorted by the places where their names are found first. These places are in the order
in which the names occur as words, so the order of the parameters depends on nothing but the words of
the text that the names are looked for in.

## Main definitions

* `Context.Precedes`: one name is found before another one.

## Main results

* `Context.pairwise_orderedParameters`: parameters are in the order of their places.
* `Context.eq_of_pairwise_precedes`: there is only one such order.
* `Context.pairwise_precedes_words`: words at their first occurrences are in this order.
* `Context.orderedParameters_congr`: the order depends on nothing but the words.
-/

namespace Formula

open Text

namespace Context

/-- One name is found before another one. -/
def Precedes (src x y : Text) : Prop :=
  ∃ m n, firstWord? x src = some m ∧ firstWord? y src = some n ∧ m < n

/-- Parameters are in the order of their places. -/
theorem pairwise_orderedParameters {src : Text} {found : List (Nat × Text)}
    (hdistinct : (found.map Prod.snd).Nodup) (hplaces : ∀ p ∈ found, firstWord? p.2 src = some p.1)
    (hwords : ∀ p ∈ found, ∀ c ∈ p.2, isIdentifierChar c = true) :
    ((orderedParameters found).map fun p => p.name.toList).Pairwise (Precedes src) := by
  let before (a b : Nat × Text) : Bool := a.1 < b.1 || (a.1 == b.1 && (compare a.2 b.2).isLE)
  have htrans (a b c : Nat × Text) (hab : before a b = true) (hbc : before b c = true) :
      before a c = true := by
    simp only [before, Bool.or_eq_true, decide_eq_true_eq, Bool.and_eq_true, beq_iff_eq]
      at hab hbc ⊢
    rcases hab with hab | ⟨hab, hab'⟩ <;> rcases hbc with hbc | ⟨hbc, hbc'⟩
    · exact .inl (by omega)
    · exact .inl (by omega)
    · exact .inl (by omega)
    · exact .inr ⟨hab.trans hbc, Std.TransCmp.isLE_trans hab' hbc'⟩
  have htotal (a b : Nat × Text) : (before a b || before b a) = true := by
    simp only [before, Bool.or_eq_true, decide_eq_true_eq, Bool.and_eq_true, beq_iff_eq]
    rcases Nat.lt_trichotomy a.1 b.1 with hlt | heq | hlt
    · exact .inl (.inl hlt)
    · have hswap : compare b.2 a.2 = (compare a.2 b.2).swap := Std.OrientedCmp.eq_swap
      rw [hswap]
      cases compare a.2 b.2 with
      | lt => exact .inl (.inr ⟨heq, rfl⟩)
      | eq => exact .inl (.inr ⟨heq, rfl⟩)
      | gt => exact .inr (.inr ⟨heq.symm, rfl⟩)
    · exact .inr (.inl hlt)
  have hnodup : ((found.mergeSort before).map Prod.snd).Nodup :=
    ((List.mergeSort_perm found before).map _).nodup_iff.mpr hdistinct
  rw [orderedParameters, List.map_map, List.pairwise_map]
  refine ((List.pairwise_map.mp hnodup).and
    (List.pairwise_mergeSort htrans htotal found)).imp_of_mem
    fun {a b} ha hb hab => ?_
  have ha := List.mem_mergeSort.mp ha
  have hb := List.mem_mergeSort.mp hb
  have hne : a.1 ≠ b.1 := fun heq => hab.1
    (eq_of_firstWord?_eq (hwords a ha) (hwords b hb) (hplaces a ha) (heq ▸ hplaces b hb))
  refine ⟨a.1, b.1, ?_, ?_, ?_⟩
  · simpa using hplaces a ha
  · simpa using hplaces b hb
  · simpa [before, hne] using hab.2

/-- Two lists of names in the order of their places are the same if they have the same members. -/
theorem eq_of_pairwise_precedes {src : Text} {l l' : List Text}
    (h : l.Pairwise (Precedes src)) (h' : l'.Pairwise (Precedes src)) (hmem : ∀ x, x ∈ l ↔ x ∈ l') :
    l = l' := by
  have hirrefl {x y : Text} (hxy : Precedes src x y) (hyx : Precedes src y x ∨ x = y) : False := by
    obtain ⟨m, n, hm, hn, hlt⟩ := hxy
    rcases hyx with ⟨n', m', hn', hm', hlt'⟩ | rfl
    · obtain rfl := Option.some.inj (hm.symm.trans hm')
      obtain rfl := Option.some.inj (hn.symm.trans hn')
      omega
    · obtain rfl := Option.some.inj (hm.symm.trans hn)
      exact Nat.lt_irrefl _ hlt
  have hnodup {l : List Text} (h : l.Pairwise (Precedes src)) : l.Nodup :=
    h.imp fun hxy heq => hirrefl hxy (.inr heq)
  exact List.Perm.eq_of_pairwise (fun x y _ _ hxy hyx => (hirrefl hxy (.inl hyx)).elim) h h'
    ((List.perm_ext_iff_of_nodup (hnodup h) (hnodup h')).mpr hmem)

/-- Some of the words of a text, without repetitions, are in the order of their places. -/
theorem pairwise_precedes_words {src : Text} {keep : Text → Bool}
    (hkeep : ∀ x ∈ words src, keep x = true → ∀ c ∈ x, isIdentifierChar c = true) :
    ((words src).filter keep).eraseDups.Pairwise (Precedes src) := by
  have hplace {x : Text} (hx : x ∈ words src) (hkept : keep x = true) :
      (∃ n, firstWord? x src = some n) ∧ (∀ c ∈ x, isIdentifierChar c = true) ∧ x ≠ [] := by
    have hword := hkeep x hx hkept
    have hne : x ≠ [] := of_decide_eq_true (List.mem_filter.mp hx).2
    obtain ⟨before, rest, heq, hisolated⟩ := exists_of_mem_words hx
    obtain ⟨n, -, hn⟩ := firstWord?_le hne hword hisolated
    exact ⟨⟨n, heq ▸ hn⟩, hword, hne⟩
  refine pairwise_eraseDups fun u x v huv y hy hyu hyx => ?_
  obtain ⟨l₁, l₂, hl, rfl, hl₂⟩ := List.filter_eq_append_iff.mp huv
  obtain ⟨l₃, l₄, rfl, hl₃, hx, rfl⟩ := List.filter_eq_cons_iff.mp hl₂
  obtain ⟨hy₄, hy⟩ := List.mem_filter.mp hy
  obtain ⟨⟨m, hm⟩, hxword, hxne⟩ := hplace (x := x) (by rw [hl]; simp) hx
  obtain ⟨⟨n, hn⟩, hyword, hyne⟩ := hplace (x := y) (by rw [hl]; simp [hy₄]) hy
  refine ⟨m, n, hm, hn, firstWord?_lt hxword hxne hyword hyne
    (hl.trans (List.append_assoc l₁ l₃ _).symm) (fun hmem => ?_) hyx hm hn⟩
  rcases List.mem_append.mp hmem with hmem | hmem
  · exact hyu (List.mem_filter.mpr ⟨hmem, hy⟩)
  · exact hl₃ y hmem hy

/-! ### The words decide -/

/-- Of two words one is the first to occur. -/
theorem exists_first {words : List Text} {x y : Text} (hx : x ∈ words) (hy : y ∈ words) :
    (∃ u v, words = u ++ x :: v ∧ y ∉ u) ∨ ∃ u v, words = u ++ y :: v ∧ x ∉ u := by
  obtain ⟨u, v, rfl, hxu⟩ := List.eq_append_cons_of_mem hx
  by_cases hyu : y ∈ u
  · obtain ⟨u₁, u₂, rfl, -⟩ := List.eq_append_cons_of_mem hyu
    exact .inr ⟨u₁, u₂ ++ x :: v, by simp, fun h => hxu (List.mem_append_left _ h)⟩
  · exact .inl ⟨u, v, rfl, hyu⟩

/-- Names are found in the same order in texts whose words correspond to each other. -/
theorem Precedes.map {rename : Text → Text} {src src' x y : Text}
    (hwords : words src' = (words src).map rename)
    (hinj : ∀ a ∈ words src, ∀ b ∈ words src, rename a = rename b → a = b)
    (hx : Text.isIdentifier x = true) (hy : Text.isIdentifier y = true)
    (hx' : Text.isIdentifier (rename x) = true) (hy' : Text.isIdentifier (rename y) = true)
    (h : Precedes src x y) : Precedes src' (rename x) (rename y) := by
  obtain ⟨m, n, hm, hn, hlt⟩ := h
  obtain ⟨hxne, hxchars⟩ := isIdentifierChar_of_isIdentifier hx
  obtain ⟨hyne, hychars⟩ := isIdentifierChar_of_isIdentifier hy
  obtain ⟨hxne', hxchars'⟩ := isIdentifierChar_of_isIdentifier hx'
  obtain ⟨hyne', hychars'⟩ := isIdentifierChar_of_isIdentifier hy'
  have hxmem := mem_words_of_firstWord? hx hm
  have hymem := mem_words_of_firstWord? hy hn
  obtain ⟨m', hm'⟩ := exists_firstWord?_of_mem_words hx' (hwords ▸ List.mem_map_of_mem hxmem)
  obtain ⟨n', hn'⟩ := exists_firstWord?_of_mem_words hy' (hwords ▸ List.mem_map_of_mem hymem)
  have hne : x ≠ y := by
    rintro rfl
    exact Nat.lt_irrefl m (by rwa [Option.some.inj (hn.symm.trans hm)] at hlt)
  refine ⟨m', n', hm', hn', ?_⟩
  rcases exists_first hxmem hymem with ⟨u, v, huv, hyu⟩ | ⟨u, v, huv, hxu⟩
  · have huv' : words src' = u.map rename ++ rename x :: v.map rename := by rw [hwords, huv]; simp
    refine firstWord?_lt hxchars' hxne' hychars' hyne' huv' (fun hmem => ?_)
      (fun heq => hne (hinj _ hxmem _ hymem heq.symm)) hm' hn'
    obtain ⟨z, hz, heq⟩ := List.mem_map.mp hmem
    exact hyu (hinj _ (by rw [huv]; exact List.mem_append_left _ hz) _ hymem heq ▸ hz)
  · have := firstWord?_lt hychars hyne hxchars hxne huv hxu hne hn hm
    omega

theorem mem_names_orderedParameters {found : List (Nat × Text)} {name : Text} :
    name ∈ (orderedParameters found).map (fun p => p.name.toList) ↔ name ∈ found.map Prod.snd := by
  rw [orderedParameters, List.map_map, List.mem_map, List.mem_map]
  simp only [Function.comp_apply, String.toList_ofList, List.mem_mergeSort]

/-- The parameters of texts whose words correspond to each other are in the same order. -/
theorem names_orderedParameters {rename : Text → Text} {src src' : Text}
    {found found' : List (Nat × Text)} (hwords : words src' = (words src).map rename)
    (hinj : ∀ a ∈ words src, ∀ b ∈ words src, rename a = rename b → a = b)
    (hmem : ∀ name, name ∈ found'.map Prod.snd ↔ ∃ x ∈ found.map Prod.snd, rename x = name)
    (hdistinct : (found.map Prod.snd).Nodup) (hdistinct' : (found'.map Prod.snd).Nodup)
    (hidentifier : ∀ p ∈ found, Text.isIdentifier p.2 = true)
    (hidentifier' : ∀ p ∈ found', Text.isIdentifier p.2 = true)
    (hplaces : ∀ p ∈ found, firstWord? p.2 src = some p.1)
    (hplaces' : ∀ p ∈ found', firstWord? p.2 src' = some p.1) :
    (orderedParameters found').map (fun p => p.name.toList) =
      ((orderedParameters found).map fun p => p.name.toList).map rename := by
  have hname {found : List (Nat × Text)} (hfound : ∀ p ∈ found, Text.isIdentifier p.2 = true)
      {name : Text} (hname : name ∈ found.map Prod.snd) : Text.isIdentifier name = true := by
    obtain ⟨p, hp, rfl⟩ := List.mem_map.mp hname
    exact hfound p hp
  have hchars {found : List (Nat × Text)} (hfound : ∀ p ∈ found, Text.isIdentifier p.2 = true)
      (p : Nat × Text) (hp : p ∈ found) : ∀ c ∈ p.2, isIdentifierChar c = true :=
    (isIdentifierChar_of_isIdentifier (hfound p hp)).2
  refine eq_of_pairwise_precedes
    (pairwise_orderedParameters hdistinct' hplaces' (hchars hidentifier'))
    (List.pairwise_map.mpr ((pairwise_orderedParameters hdistinct hplaces
      (hchars hidentifier)).imp_of_mem fun {x y} hx hy hxy => ?_)) fun name => ?_
  · have hx := mem_names_orderedParameters.mp hx
    have hy := mem_names_orderedParameters.mp hy
    exact hxy.map hwords hinj (hname hidentifier hx) (hname hidentifier hy)
      (hname hidentifier' ((hmem _).mpr ⟨x, hx, rfl⟩)) (hname hidentifier' ((hmem _).mpr ⟨y, hy, rfl⟩))
  · rw [mem_names_orderedParameters, hmem, List.mem_map]
    exact exists_congr fun x => and_congr_left fun _ => mem_names_orderedParameters.symm

/-- The order of the parameters depends on nothing but the words of the text that their names are
looked for in. -/
theorem orderedParameters_congr {src src' : Text} {found found' : List (Nat × Text)}
    (hwords : words src = words src') (hnames : found.map Prod.snd = found'.map Prod.snd)
    (hdistinct : (found.map Prod.snd).Nodup)
    (hidentifier : ∀ p ∈ found, Text.isIdentifier p.2 = true)
    (hplaces : ∀ p ∈ found, firstWord? p.2 src = some p.1)
    (hplaces' : ∀ p ∈ found', firstWord? p.2 src' = some p.1) :
    orderedParameters found = orderedParameters found' := by
  have hidentifier' (p : Nat × Text) (hp : p ∈ found') : Text.isIdentifier p.2 = true := by
    obtain ⟨q, hq, heq⟩ := List.mem_map.mp (hnames ▸ List.mem_map_of_mem (f := Prod.snd) hp)
    exact heq ▸ hidentifier q hq
  have hwords' : words src' = (words src).map id := by rw [hwords, List.map_id]
  have heq := names_orderedParameters hwords' (fun _ _ _ _ => id) (by simp [hnames]) hdistinct
    (hnames ▸ hdistinct) hidentifier hidentifier' hplaces hplaces'
  rw [List.map_id] at heq
  have hrebuild (found : List (Nat × Text)) : orderedParameters found =
      ((orderedParameters found).map fun p => p.name.toList).map fun name =>
        ⟨String.ofList name, TypeMask.all⟩ := by
    simp only [orderedParameters, List.map_map, Function.comp_def, String.toList_ofList]
  rw [hrebuild found, ← heq, ← hrebuild]

end Context

end Formula
