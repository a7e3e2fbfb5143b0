import Mathlib.Data.Nat.Basic
import Formula.Compile.Build
import Formula.Proofs.Compile.Preparation

/-!
# The splits of a chain

The tree builder splits a text at every occurrence of every operator. In a text of pieces these are
the operators between two operands, and the prefix operators that are also binary ones. The splits
are tried from the loosest tier to the tightest, and within a tier from right to left. So all
splits of a chain that are tried before its last loosest operator are at prefix operators, and
what precedes a prefix operator ends in an operator.

## Main definitions

* `TreeBuilder.common`: the tree builder for the common tokens.
* `IsBroken`: pieces that end in an operator.

## Main results

* `TreeBuilder.mem_candidates_iff`: the splits of a text of pieces.
* `TreeBuilder.exists_candidates_eq`: the splits up to the last loosest operator.
-/

namespace Formula

open Text

/-- Pieces that end in an operator. -/
structure IsBroken (f : Family) (pieces : List Piece) : Prop where
  ne_nil : pieces ≠ []
  follow : f.follow true pieces = some true

/-- The atoms among the pieces of a chain of a family are atoms of the family. -/
theorem Chain.IsOf.isAtom_of_mem_pieces {f : Family} {c : Chain}
    (hc : c.IsOf f fun x => f.isAtom x = true) (x : Text) (hx : Piece.atom x ∈ c.pieces f) :
    f.isAtom x = true := by
  obtain ⟨w, hw, rfl⟩ := Chain.atom_mem_pieces_iff.mp hx
  exact hc.2 w hw

theorem Chain.length_textAll_pos {f : Family} {c : Chain}
    (h : f.isAtom c.first.atom = true) : 0 < (Piece.textAll (c.pieces f)).length := by
  have := List.length_pos_iff.mpr (Family.atom_ne_nil h)
  rw [Chain.textAll_pieces]
  simp only [Chain.text, Operand.text, List.length_append]
  omega

namespace TreeBuilder

/-- The tree builder for the common tokens. -/
def common (style : Precedence) (ctx : Context) : TreeBuilder :=
  ofDefinition { precedence := style } (Compiler.common style).tokens Registry.standard ctx

variable {f : Family} {style : Precedence} {ctx : Context} {text : Text}

/-- An operator of another family shows by a character that the family does not have. -/
theorem marked_token (f : Family) (style : Precedence) {op : BinaryOp}
    (hop : op ∈ Definition.binaryOps) :
    (∃ o ∈ f.operations, op = .operate o) ∨
      ∃ c ∈ Markers.common.marked (Definition.token { precedence := style } op).toList,
        c ∉ f.marks ∧ isWordChar c = false := by
  have hall : ∀ op ∈ Definition.binaryOps, op ∈ f.operations.map BinaryOp.operate ∨
      ((Markers.common.marked (Definition.token { precedence := style } op).toList).any fun c =>
        c ∉ f.marks && !isWordChar c) = true := by
    cases f <;> cases style <;> decide
  rcases hall op hop with hown | hany
  · obtain ⟨o, ho, rfl⟩ := List.mem_map.mp hown
    exact .inl ⟨o, ho, rfl⟩
  · obtain ⟨c, hc, hother⟩ := List.any_eq_true.mp hany
    exact .inr ⟨c, hc, by simpa using hother⟩

theorem marked_operation (f : Family) (style : Precedence) {o : Operation}
    (ho : o ∈ f.operations) :
    Markers.common.marked (Definition.token { precedence := style } (.operate o)).toList =
      [o.mark] := by
  revert o
  cases f <;> cases style <;> decide

/-- The splits of a text of atoms and operators of a family are at the operators of the family. -/
theorem mem_candidates_iff (hchars : ∀ c ∈ text, c ∈ f.marks ∨ isWordChar c = true)
    {s : Split} :
    s ∈ (common style ctx).candidates text ↔ ∃ o ∈ f.operations,
      s = ⟨.operate o, Operation.tier style o, s.place, 1⟩ ∧ text[s.place]? = some o.mark ∧
        0 < s.place ∧ s.place + 1 < text.length := by
  simp only [candidates, List.mem_mergeSort, List.mem_filter, List.mem_flatMap, List.mem_map,
    Bool.and_eq_true, decide_eq_true_eq]
  constructor
  · rintro ⟨⟨⟨op, tier, token⟩, hentry, place, hplace, rfl⟩, hpos, hlt⟩
    obtain ⟨op, hop, heq⟩ : ∃ o ∈ Definition.binaryOps, (o, o.tier style,
      Markers.common.marked (Definition.token { precedence := style } o).toList) =
        (op, tier, token) := List.mem_map.mp hentry
    cases heq
    dsimp only at hplace hpos hlt ⊢
    rcases marked_token f style hop with ⟨o, ho, rfl⟩ | ⟨c, hc, hmark, hword⟩
    · rw [marked_operation f style ho] at hplace hlt ⊢
      exact ⟨o, ho, rfl, Text.mem_places_singleton_iff.mp hplace, hpos, hlt⟩
    · obtain ⟨before, rest, rfl, -⟩ := Text.exists_of_mem_places hplace
      rcases hchars c (List.mem_append_left _ (List.mem_append_right _ hc)) with h | h
      · exact absurd h hmark
      · rw [hword] at h
        cases h
  · rintro ⟨o, ho, hs, hget, hpos, hlt⟩
    have hop : BinaryOp.operate o ∈ Definition.binaryOps := by
      cases o <;> decide
    refine ⟨⟨_, List.mem_map.mpr ⟨_, hop, rfl⟩, s.place, ?_, ?_⟩, hpos, by rw [hs]; exact hlt⟩
    · dsimp only
      change s.place ∈ Text.places (Markers.common.marked _) text
      rw [marked_operation f style ho]
      exact Text.mem_places_singleton_iff.mpr hget
    · rw [hs]
      change Split.mk _ _ _ (Markers.common.marked _).length = _
      rw [marked_operation f style ho]
      rfl

/-- Splits are tried from the loosest tier to the tightest, and within a tier from right to
left. -/
theorem pairwise_candidates (t : TreeBuilder) (text : Text) :
    (t.candidates text).Pairwise fun a b => a.precedes b = true := by
  refine List.pairwise_mergeSort ?_ ?_ _
  · intro a b c hab hbc
    simp only [Split.precedes, Bool.or_eq_true, Bool.and_eq_true, decide_eq_true_eq,
      beq_iff_eq] at *
    omega
  · intro a b
    simp only [Split.precedes, Bool.or_eq_true, Bool.and_eq_true, decide_eq_true_eq, beq_iff_eq]
    omega

section Pieces

variable {pieces : List Piece} {e : Bool} (hfollow : f.follow true pieces = some e)
  (hatoms : ∀ x, Piece.atom x ∈ pieces → f.isAtom x = true)
include hfollow hatoms

/-- A split of a text of pieces is between its pieces. -/
theorem exists_of_mem_candidates {s : Split}
    (hs : s ∈ (common style ctx).candidates (Piece.textAll pieces)) :
    ∃ o ∈ f.operations, ∃ u v, pieces = u ++ .mark o.mark :: v ∧
      s = ⟨.operate o, Operation.tier style o, (Piece.textAll u).length, 1⟩ ∧ u ≠ [] ∧ v ≠ [] := by
  have hchars : ∀ c ∈ Piece.textAll pieces, c ∈ f.marks ∨ isWordChar c = true := fun c hc =>
    Family.mem_marks_or_isWordChar hfollow hatoms hc
  obtain ⟨o, ho, heq, hget, hpos, hlt⟩ := (mem_candidates_iff hchars).mp hs
  obtain ⟨hplace, hmark⟩ := List.getElem?_eq_some_iff.mp hget
  have hcut : Piece.textAll pieces = (Piece.textAll pieces).take s.place ++
      o.mark :: (Piece.textAll pieces).drop (s.place + 1) := by
    rw [← hmark, List.getElem_cons_drop, List.take_append_drop]
  obtain ⟨u, v, rfl, hu, hv⟩ := Piece.exists_of_textAll_eq (fun x hx =>
    Family.not_mem_atom (hatoms x hx) (Family.mark_mem_marks ho)) hcut
  have hlength : (Piece.textAll u).length = s.place := by
    rw [hu, List.length_take, Nat.min_eq_left hplace.le]
  refine ⟨o, ho, u, v, rfl, by rw [hlength]; exact heq, ?_, ?_⟩
  · rintro rfl
    simp at hlength
    omega
  · rintro rfl
    have := congrArg List.length hv
    simp only [Piece.textAll_nil, List.length_nil, List.length_drop] at this
    omega

end Pieces

/-- The split at an operator of a chain is one of the candidates. -/
theorem mem_candidates_of_chain {first u : Operand} {before after : List (Operation × Operand)}
    {op : Operation} (hc : Chain.IsOf f (fun x => f.isAtom x = true)
      ⟨first, before ++ (op, u) :: after⟩) :
    ⟨.operate op, Operation.tier style op,
        (Piece.textAll (Chain.pieces f ⟨first, before⟩)).length, 1⟩ ∈
      (common style ctx).candidates
        (Piece.textAll (Chain.pieces f ⟨first, before ++ (op, u) :: after⟩)) := by
  have hop : op ∈ f.operations := hc.1 (op, u) (by simp)
  have hleft : 0 < (Piece.textAll (Chain.pieces f ⟨first, before⟩)).length :=
    Chain.length_textAll_pos (hc.2 first (List.mem_cons_self ..))
  have hright : 0 < (Piece.textAll (Chain.pieces f ⟨u, after⟩)).length :=
    Chain.length_textAll_pos (hc.2 u (by simp [Chain.operands]))
  refine (mem_candidates_iff fun c hmem => Family.mem_marks_or_isWordChar
    (Family.follow_chain hc.1) hc.isAtom_of_mem_pieces hmem).mpr ⟨op, hop, rfl, ?_, hleft, ?_⟩
  · rw [Chain.pieces_append, Piece.textAll_append]
    simp [Piece.text]
  · rw [Chain.pieces_append, Piece.textAll_append]
    simp only [Piece.textAll_cons, Piece.text, List.length_append, List.length_cons,
      List.length_nil]
    omega

/-- All splits of a chain that are tried before its last loosest operator are at prefix
operators. -/
theorem exists_candidates_eq {first u : Operand} {before after : List (Operation × Operand)}
    {op : Operation} (hc : Chain.IsOf f (fun x => f.isAtom x = true)
      ⟨first, before ++ (op, u) :: after⟩)
    (hbefore : ∀ q ∈ before, Operation.tier style op ≤ Operation.tier style q.1)
    (hafter : ∀ q ∈ after, Operation.tier style op < Operation.tier style q.1) :
    ∃ earlier later, (common style ctx).candidates
        (Piece.textAll (Chain.pieces f ⟨first, before ++ (op, u) :: after⟩)) =
          earlier ++ ⟨.operate op, Operation.tier style op,
            (Piece.textAll (Chain.pieces f ⟨first, before⟩)).length, 1⟩ :: later ∧
      ∀ s ∈ earlier, ∃ o v w, Chain.pieces f ⟨first, before ++ (op, u) :: after⟩ =
          v ++ .mark o.mark :: w ∧
        s = ⟨.operate o, Operation.tier style o, (Piece.textAll v).length, 1⟩ ∧ IsBroken f v := by
  obtain ⟨earlier, later, heq, hnot⟩ :=
    List.eq_append_cons_of_mem (@mem_candidates_of_chain f style ctx _ _ _ _ _ hc)
  refine ⟨earlier, later, heq, fun s hs => ?_⟩
  have hsorted := pairwise_candidates (common style ctx)
    (Piece.textAll (Chain.pieces f ⟨first, before ++ (op, u) :: after⟩))
  rw [heq] at hsorted
  have hprecedes := (List.pairwise_append.mp hsorted).2.2 s hs _ (List.mem_cons_self ..)
  have hfollow := Family.follow_chain hc.1
  obtain ⟨o, ho, v, w, hpieces, hsplit, hv, -⟩ := exists_of_mem_candidates hfollow
    hc.isAtom_of_mem_pieces (heq ▸ List.mem_append_left _ hs)
  refine ⟨o, v, w, hpieces, hsplit, hv, ?_⟩
  have hfollow' := hfollow
  rw [hpieces, Family.follow_append] at hfollow'
  obtain ⟨e, he, -⟩ := Option.bind_eq_some_iff.mp hfollow'
  cases e with
  | true => exact he
  | false =>
    -- an operator between operands that is no looser than the loosest, and no further to the left
    exfalso
    obtain ⟨before', op', u', after', hrest, hmark, hleft, -⟩ :=
      Chain.rest_eq_of_follow hc.1 hpieces he
    have hop' : op' ∈ f.operations := hc.1 (op', u') (by rw [hrest]; simp)
    obtain rfl := Family.mark_injOn hop' ho hmark
    dsimp only at hrest hleft
    subst hsplit hleft
    simp only [Split.precedes, Bool.or_eq_true, Bool.and_eq_true, decide_eq_true_eq,
      beq_iff_eq] at hprecedes
    rcases List.append_eq_append_iff.mp hrest with ⟨mid, rfl, hmid⟩ | ⟨mid, rfl, hmid⟩
    · cases mid with
      | nil =>
        obtain ⟨hq, -⟩ := List.cons.inj hmid
        cases hq
        rw [List.append_nil] at hs
        exact hnot hs
      | cons q mid =>
        obtain ⟨rfl, rfl⟩ := List.cons.inj hmid
        have htier : Operation.tier style op < Operation.tier style op' :=
          hafter (op', u') (by simp)
        omega
    · cases mid with
      | nil =>
        obtain ⟨hq, -⟩ := List.cons.inj hmid
        cases hq
        rw [List.append_nil] at hnot
        exact hnot hs
      | cons q mid =>
        obtain ⟨rfl, rfl⟩ := List.cons.inj hmid
        have htier : Operation.tier style op ≤ Operation.tier style op' :=
          hbefore (op', u') (by simp)
        rw [Chain.pieces_append, Piece.textAll_append, Piece.textAll_cons] at hprecedes
        simp only [Piece.text, List.length_append, List.length_cons, List.length_nil] at hprecedes
        omega

end TreeBuilder

end Formula
