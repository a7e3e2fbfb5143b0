import Mathlib.Algebra.GroupWithZero.Nat
import Formula.Proofs.Compile.ChainBuilding

/-!
# How many splits a chain takes

Every split of a part of a chain is at one of its operators, and leaves the other operators to its
two sides. So a part with few operators is built, or fails, after few splits, whatever is remembered
and however the parameters are narrowed.

## Main definitions

* `Spends`: a bound on the splits that building tries.
* `splitBound`: a bound for parts with a number of operators.
* `Compiler.splits`: the number of splits a compilation tries.

## Main results

* `TreeBuilder.length_candidates_le`: a text has at most as many splits as operators.
* `PreparedChain.spends_buildWithin`: the bound for all parts of a chain.
-/

namespace Formula

open Text

/-! ### Counting splits -/

/-- Building tries at most `cost` splits. -/
def Spends {α : Type} (m : BuildM α) (cost : Nat) : Prop :=
  ∀ s, (m.run s).2.splits ≤ s.splits + cost

section Spends

variable {α β : Type} {cost cost' : Nat}

theorem Spends.mono {m : BuildM α} (h : Spends m cost) (hle : cost ≤ cost') : Spends m cost' :=
  fun s => (h s).trans (Nat.add_le_add_left hle _)

theorem spends_pure (a : α) : Spends (pure a) cost := fun _ => Nat.le_add_right _ _

theorem spends_throw (fault : CompileFault) : Spends (throw fault : BuildM α) cost :=
  fun _ => Nat.le_add_right _ _

theorem spends_bind {m : BuildM α} {g : α → BuildM β} (hm : Spends m cost)
    (hg : ∀ a, Spends (g a) cost') : Spends (m >>= g) (cost + cost') := by
  intro s
  have hfirst := hm s
  rw [BuildM.run_bind]
  cases hrun : m.run s with
  | mk outcome s' =>
  rw [hrun] at hfirst
  cases outcome with
  | error fault =>
    dsimp only at hfirst ⊢
    omega
  | ok a =>
    have hsecond := hg a s'
    dsimp only at hfirst ⊢
    omega

theorem spends_get_bind {g : BuildState → BuildM β} (hg : ∀ s, Spends (g s) cost) :
    Spends (get >>= g) cost :=
  fun s => hg s s

theorem spends_assemble (head : Head) (operands : List Node) :
    Spends (TreeBuilder.assemble head operands) 0 := by
  intro s
  rw [TreeBuilder.assemble, BuildM.run_bind, BuildM.run_get]
  dsimp only
  rcases Node.assemble head operands s.params with ⟨_ | _, _⟩ <;> exact Nat.le_refl _

theorem spends_attempt {way : BuildM Node} (h : Spends way cost) (t : TreeBuilder) (text : Text) :
    Spends (t.attempt text way) (cost + 1) := by
  intro s
  have hway := h (TreeBuilder.spent s)
  have hspent : (TreeBuilder.spent s).splits = s.splits + 1 := rfl
  rw [TreeBuilder.run_attempt]
  split
  · dsimp only
    omega
  · cases hrun : way.run (TreeBuilder.spent s) with
    | mk outcome s' =>
    rw [hrun, hspent] at hway
    dsimp only at hway
    rcases outcome with fault | node
    · cases fault <;> dsimp only <;> omega
    · dsimp only
      omega

theorem spends_firstSuccess {ways : List (BuildM Node)} (h : ∀ way ∈ ways, Spends way cost)
    (t : TreeBuilder) (text : Text) :
    Spends (t.firstSuccess text ways) (ways.length * (cost + 1)) := by
  induction ways with
  | nil => exact spends_pure _
  | cons way ways ih =>
    obtain ⟨hway, hways⟩ := List.forall_mem_cons.mp h
    rw [TreeBuilder.firstSuccess, List.length_cons, Nat.succ_mul, Nat.add_comm]
    refine spends_bind (spends_attempt hway t text) fun found => ?_
    cases found with
    | some node => exact spends_pure _
    | none => exact ih hways

theorem spends_remember {build : BuildM Node} (h : Spends build cost) (text : Text) :
    Spends (TreeBuilder.remember text build) cost := by
  intro s
  rw [TreeBuilder.remember, BuildM.run_bind, BuildM.run_get]
  dsimp only
  split
  · exact Nat.le_add_right _ _
  · exact Nat.le_add_right _ _
  · have hbuild := h s
    rw [BuildM.run_bind, BuildM.run_observe]
    dsimp only
    rw [BuildM.run_bind, BuildM.run_modify]
    cases hrun : build.run s with
    | mk outcome s' =>
    rw [hrun] at hbuild
    cases outcome <;> exact hbuild

end Spends

/-- A bound on the splits of a part with a number of operators: each split is tried with the bound
for one operator less. -/
def splitBound : Nat → Nat
  | 0 => 0
  | k + 1 => (k + 3) * (splitBound k + 1)

/-- The bound covers the two sides of a split. -/
theorem splitBound_add_le (i j : Nat) : splitBound i + splitBound j ≤ splitBound (i + j) := by
  induction i with
  | zero => rw [Nat.zero_add, splitBound, Nat.zero_add]
  | succ i ih =>
    calc splitBound (i + 1) + splitBound j
        ≤ (i + 3) * (splitBound i + 1) + (i + 3) * splitBound j := by
          rw [splitBound]
          exact Nat.add_le_add_left (Nat.le_mul_of_pos_left _ (by omega)) _
      _ = (i + 3) * (splitBound i + splitBound j + 1) := by
          rw [← Nat.mul_add, Nat.add_right_comm]
      _ ≤ (i + j + 3) * (splitBound (i + j) + 1) := Nat.mul_le_mul (by omega) (by omega)
      _ = splitBound (i + 1 + j) := by rw [Nat.add_right_comm i 1 j, splitBound]

/-! ### Counting occurrences -/

theorem Text.length_places_singleton (c : Char) (text : Text) :
    (places [c] text).length = text.count c := by
  have hfrom (place : Nat) : (placesFrom [c] 0 place text).length = text.count c := by
    induction text generalizing place with
    | nil => rfl
    | cons d text ih =>
      rw [placesFrom, List.count_cons]
      by_cases hc : d = c
      · subst hc
        simp [ih]
      · simp [ih, hc, Ne.symm hc]
  exact hfrom 0

theorem Text.places_eq_nil {token text : Text} {c : Char} (hc : c ∈ token) (h : c ∉ text) :
    places token text = [] := by
  refine List.eq_nil_iff_forall_not_mem.mpr fun i hi => ?_
  obtain ⟨before, rest, rfl, -⟩ := exists_of_mem_places hi
  exact h (by simp [hc])

/-- Different characters occur at different places. -/
theorem Text.sum_count_le {chars : List Char} (h : chars.Nodup) (text : Text) :
    (chars.map fun c => text.count c).sum ≤ text.countP (· ∈ chars) := by
  induction chars with
  | nil => simp
  | cons c chars ih =>
    obtain ⟨hc, hchars⟩ := List.nodup_cons.mp h
    have hsplit : text.countP (· ∈ c :: chars) = text.count c + text.countP (· ∈ chars) := by
      clear ih
      induction text with
      | nil => rfl
      | cons d text ih =>
        rw [List.countP_cons, List.countP_cons, List.count_cons, ih]
        by_cases hd : d = c
        · subst hd
          simp [hc]
          omega
        · simp [hd]
          omega
    rw [List.map_cons, List.sum_cons, hsplit]
    exact Nat.add_le_add_left (ih hchars) _

/-- The number of operators in a text. -/
def Family.markCount (f : Family) (text : Text) : Nat :=
  text.countP (· ∈ f.marks)

theorem Family.markCount_textAll {f : Family} {u v : List Piece} {m : Char} (hm : m ∈ f.marks) :
    f.markCount (Piece.textAll (u ++ .mark m :: v)) =
      f.markCount (Piece.textAll u) + f.markCount (Piece.textAll v) + 1 := by
  simp only [markCount, Piece.textAll_append, Piece.textAll_cons, Piece.text,
    List.singleton_append, List.countP_append, List.countP_cons, hm, decide_true, if_true]
  omega

/-- A text has at most as many splits as operators. -/
theorem TreeBuilder.length_candidates_le {f : Family} {style : Precedence} {ctx : Context}
    {text : Text} (hchars : ∀ c ∈ text, c ∈ f.marks ∨ isWordChar c = true) :
    ((common style ctx).candidates text).length ≤ f.markCount text := by
  let found (op : BinaryOp) : Nat := (places (Markers.common.marked
    (Definition.token { precedence := style } op).toList) text).length
  have hbinary : (common style ctx).binary = Definition.binaryOps.map fun op => (op, op.tier style,
      Markers.common.marked (Definition.token { precedence := style } op).toList) := rfl
  have hown (o : Operation) (ho : o ∈ f.operations) : found (.operate o) = text.count o.mark := by
    simp only [found]
    rw [marked_operation f style ho, Text.length_places_singleton]
  have hother (op : BinaryOp) (hop : op ∈ Definition.binaryOps)
      (hnot : op ∉ f.operations.map .operate) : found op = 0 := by
    rcases marked_token f style hop with ⟨o, ho, rfl⟩ | ⟨c, hc, hmark, hword⟩
    · exact absurd (List.mem_map_of_mem ho) hnot
    · have htext : c ∉ text := fun hmem => by
        rcases hchars c hmem with h | h
        · exact hmark h
        · rw [hword] at h
          cases h
      simp only [found]
      rw [Text.places_eq_nil hc htext, List.length_nil]
  have hfilter (ops : List BinaryOp) (hops : ∀ op ∈ ops, op ∈ Definition.binaryOps) :
      (ops.map found).sum =
        ((ops.filter fun op => op ∈ f.operations.map BinaryOp.operate).map found).sum := by
    induction ops with
    | nil => rfl
    | cons op ops ih =>
      obtain ⟨hop, hops⟩ := List.forall_mem_cons.mp hops
      rw [List.map_cons, List.sum_cons, ih hops, List.filter_cons]
      split
      · rw [List.map_cons, List.sum_cons]
      · next hnot => rw [hother op hop (by simpa using hnot), Nat.zero_add]
  have hperm : (Definition.binaryOps.filter fun op => op ∈ f.operations.map BinaryOp.operate).Perm
      (f.operations.map BinaryOp.operate) := by
    cases f <;> decide
  have hnodup : (f.operations.map Operation.mark).Nodup := by
    cases f <;> decide
  calc ((common style ctx).candidates text).length
      ≤ (Definition.binaryOps.map found).sum := by
        rw [candidates, List.length_mergeSort]
        refine (List.length_filter_le _ _).trans ?_
        rw [List.length_flatMap, hbinary, List.map_map]
        simp only [Function.comp_def, List.length_map, found, Nat.le_refl]
    _ = ((f.operations.map BinaryOp.operate).map found).sum := by
        rw [hfilter _ fun _ h => h]
        exact (hperm.map found).sum_nat
    _ = ((f.operations.map Operation.mark).map fun c => text.count c).sum := by
        rw [List.map_map, List.map_map]
        exact congrArg List.sum (List.map_congr_left hown)
    _ ≤ text.countP (· ∈ f.operations.map Operation.mark) := Text.sum_count_le hnodup text
    _ ≤ f.markCount text := by
        refine List.countP_mono_left fun c _ hc => ?_
        exact decide_eq_true (List.mem_cons_of_mem _ (of_decide_eq_true hc))

/-! ### The parts of a chain -/

namespace PreparedChain

variable {P : PreparedChain}

theorem exists_reading {pieces : List Piece} {e : Bool} (hne : pieces ≠ [])
    (hfollow : P.family.follow true pieces = some e)
    (hatoms : ∀ x, Piece.atom x ∈ pieces → Piece.atom x ∈ P.pieces) :
    ∃ r, P.IsPart r ∧ P.text r = Piece.textAll pieces := by
  cases e with
  | true => exact ⟨.broken pieces, isPart_broken hne hfollow hatoms, rfl⟩
  | false =>
    obtain ⟨c, hops, rfl⟩ := Chain.exists_of_follow hfollow
    exact ⟨.chain c, isPart_chain hops hatoms, (Chain.textAll_pieces P.family c).symm⟩

theorem IsPart.mem_marks_or_isWordChar {r : Reading} (h : P.IsPart r) (c : Char)
    (hc : c ∈ P.text r) : c ∈ P.family.marks ∨ isWordChar c = true := by
  obtain ⟨e, he⟩ := h.exists_follow
  rw [← textAll_readPieces] at hc
  exact Family.mem_marks_or_isWordChar he h.isAtom hc

section Parts

variable {build : Text → BuildM Node} (hbuild : ∀ r, P.IsPart r →
  Spends (build (P.text r)) (splitBound (P.family.markCount (P.text r))))
include hbuild

/-- The two sides of a split share the operators but one. -/
theorem spends_splitWay {r : Reading} (h : P.IsPart r) {s : TreeBuilder.Split}
    (hs : s ∈ P.builder.candidates (P.text r)) :
    Spends (TreeBuilder.splitWay build (P.text r) s)
      (splitBound (P.family.markCount (P.text r) - 1)) := by
  obtain ⟨e, hfollow⟩ := h.exists_follow
  have hatoms := h.mem_pieces
  rw [← textAll_readPieces] at hs ⊢
  obtain ⟨o, ho, u, v, hpieces, rfl, hu, hv⟩ :=
    TreeBuilder.exists_of_mem_candidates hfollow h.isAtom hs
  rw [hpieces] at hfollow hatoms ⊢
  rw [Family.follow_append] at hfollow
  obtain ⟨e', he', hend⟩ := Option.bind_eq_some_iff.mp hfollow
  obtain ⟨left, hleft, hleftText⟩ := exists_reading hu he' fun x hx =>
    hatoms x (List.mem_append_left _ hx)
  obtain ⟨right, hright, hrightText⟩ := exists_reading hv (Family.follow_mark hend) fun x hx =>
    hatoms x (List.mem_append_right _ (List.mem_cons_of_mem _ hx))
  have hbuildLeft := hbuild left hleft
  have hbuildRight := hbuild right hright
  rw [hleftText] at hbuildLeft
  rw [hrightText] at hbuildRight
  rw [TreeBuilder.splitWay_textAll, Family.markCount_textAll (Family.mark_mem_marks ho),
    Nat.add_sub_cancel]
  refine Spends.mono ?_ (splitBound_add_le _ _)
  exact spends_bind hbuildLeft fun _ => spends_bind hbuildRight fun _ => spends_assemble _ _

/-- A prefix operator leaves the other operators. -/
theorem spends_unaryWays {r : Reading} (h : P.IsPart r) {way : BuildM Node}
    (hway : way ∈ P.builder.unaryWays build (P.text r)) :
    Spends way (splitBound (P.family.markCount (P.text r) - 1)) := by
  obtain ⟨m, op, rest, hm, htext, hrest, rfl⟩ := exists_of_mem_unaryWays hway
  obtain ⟨e, hfollow⟩ := h.exists_follow
  obtain ⟨pieces, hpieces, rfl⟩ := h.exists_of_text_eq_cons hm htext
  have hatoms := h.mem_pieces
  rw [hpieces] at hfollow hatoms
  have hne : pieces ≠ [] := by
    rintro rfl
    exact hrest rfl
  obtain ⟨r', hr', htext'⟩ := exists_reading hne (Family.follow_mark hfollow) fun x hx =>
    hatoms x (List.mem_cons_of_mem _ hx)
  have hrest := hbuild r' hr'
  have hmark : m ∈ P.family.marks := Family.mark_mem_of_follow hfollow (List.mem_cons_self ..)
  have hcount : P.family.markCount (P.text r) - 1 = P.family.markCount (Piece.textAll pieces) := by
    rw [htext]
    simp [Family.markCount, hmark]
  rw [htext'] at hrest
  rw [hcount]
  exact spends_bind hrest fun _ => spends_assemble _ _

theorem spends_buildComposite {r : Reading} (h : P.IsPart r) :
    Spends (P.builder.buildComposite build (P.text r))
      (splitBound (P.family.markCount (P.text r))) := by
  have hways : Spends (P.builder.buildComposite build (P.text r))
      (((P.builder.candidates (P.text r)).length + (P.builder.unaryWays build (P.text r)).length) *
        (splitBound (P.family.markCount (P.text r) - 1) + 1)) := by
    rw [TreeBuilder.buildComposite, h.splitCall?_eq_none, TreeBuilder.binaryWays_eq_map,
      Nat.add_mul, ← List.length_map (TreeBuilder.splitWay build (P.text r))]
    change Spends (P.builder.firstSuccess _ _ >>= _) _
    refine spends_bind (spends_firstSuccess ?_ _ _) fun found => ?_
    · exact List.forall_mem_map.mpr fun s hs => spends_splitWay hbuild h hs
    cases found with
    | some node => exact spends_pure _
    | none =>
      have hunary := spends_firstSuccess (fun way hway => spends_unaryWays hbuild h hway) P.builder
        (P.text r)
      refine Spends.mono (spends_bind hunary fun found => ?_) (Nat.le_of_eq (Nat.add_zero _))
      cases found with
      | some node => exact spends_pure _
      | none => exact spends_throw _
  refine hways.mono ?_
  have hbinary : (P.builder.candidates (P.text r)).length ≤ P.family.markCount (P.text r) :=
    TreeBuilder.length_candidates_le h.mem_marks_or_isWordChar
  cases hcount : P.family.markCount (P.text r) with
  | zero =>
    have hunary : P.builder.unaryWays build (P.text r) = [] := by
      refine List.eq_nil_iff_forall_not_mem.mpr fun way hway => ?_
      obtain ⟨m, op, rest, hm, htext, -⟩ := exists_of_mem_unaryWays hway
      have hmem : m ∈ P.text r := htext ▸ List.mem_cons_self ..
      rcases h.mem_marks_or_isWordChar m hmem with hmark | hword
      · have hpos : 0 < P.family.markCount (P.text r) :=
          List.countP_pos_iff.mpr ⟨m, hmem, decide_eq_true hmark⟩
        omega
      · rw [hm] at hword
        cases hword
    have hnone : (P.builder.candidates (P.text r)).length = 0 := by omega
    rw [hunary, hnone, List.length_nil, Nat.zero_mul]
    exact Nat.zero_le _
  | succ k =>
    have hunary : (P.builder.unaryWays build (P.text r)).length ≤ 2 := by
      rw [TreeBuilder.unaryWays, P.unary_builder]
      exact List.length_filterMap_le _ _
    exact Nat.mul_le_mul (by omega) (Nat.le_refl _)

end Parts

/-- A part of a chain takes no more splits than the bound. -/
theorem spends_buildWithin (depth : Nat) {r : Reading} (h : P.IsPart r) :
    Spends (P.builder.buildWithin depth (P.text r))
      (splitBound (P.family.markCount (P.text r))) := by
  induction depth generalizing r with
  | zero => exact spends_throw _
  | succ depth ih =>
    rw [TreeBuilder.buildWithin, TreeBuilder.buildStep]
    split
    · exact spends_pure _
    · refine spends_get_bind fun s => ?_
      split
      · exact spends_pure _
      · rw [h.symbol?_eq_none]
        exact spends_remember (spends_buildComposite (fun r hr => ih hr) h) _

/-- A chain takes no more splits than the bound. -/
theorem spends_build {c : Chain} (hops : ∀ q ∈ c.rest, q.1 ∈ P.family.operations)
    (hpieces : c.pieces P.family = P.pieces) :
    Spends (P.builder.build Context.mainName) (splitBound (P.family.markCount (c.text P.family))) := by
  have hpart : P.IsPart (.chain c) := isPart_chain hops fun x hx => hpieces ▸ hx
  have htext : P.text (.chain c) = Piece.textAll P.pieces := by
    rw [← textAll_readPieces, readPieces, hpieces]
  obtain ⟨depth, -, hdepth⟩ := P.build_mainName
  rw [hdepth, TreeBuilder.buildStep]
  split
  · exact spends_pure _
  · refine spends_get_bind fun s => ?_
    split
    · exact spends_pure _
    · rw [P.symbol?_mainName, ← htext]
      dsimp only
      rw [if_neg hpart.text_ne_nil]
      exact spends_buildWithin depth hpart

end PreparedChain

end Formula
