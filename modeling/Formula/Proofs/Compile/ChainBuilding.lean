import Formula.Proofs.Compile.Backtracking

/-!
# The tree of a chain

A chain is split at the last of its loosest operators. All splits that are tried before it are at
prefix operators, and what precedes a prefix operator ends in an operator, so they fail. A chain
without operators between operands is an operand; its prefix operators come off one by one. What
ends in an operator is never built: in every split the right part ends in that operator too.

## Main results

* `PreparedChain.yields_buildComposite`: a part with an operator is built, or fails, as it is read.
* `PreparedChain.yields_buildWithin`: so are all parts of a chain.
* `PreparedChain.buildTree_chain`: the chain gets its conventional tree.
-/

namespace Formula

open Text

namespace TreeBuilder

/-- A split of a text, with its two sides built. -/
def splitWay (build : Text → BuildM Node) (text : Text) (s : Split) : BuildM Node := do
  let left ← build (text.take s.place)
  let right ← build (text.drop (s.place + s.width))
  assemble (.binary s.op) [left, right]

theorem binaryWays_eq_map (t : TreeBuilder) (build : Text → BuildM Node) (text : Text) :
    t.binaryWays build text = (t.candidates text).map (splitWay build text) := rfl

theorem splitWay_append (build : Text → BuildM Node) (op : BinaryOp) (tier : Nat) (m : Char)
    (a b : Text) :
    splitWay build (a ++ m :: b) ⟨op, tier, a.length, 1⟩ =
      build a >>= fun left => build b >>= fun right => assemble (.binary op) [left, right] := by
  have hdrop : (a ++ m :: b).drop (a.length + 1) = b := by simp
  rw [splitWay, List.take_left, hdrop]

/-- A split between two pieces builds the pieces on either side. -/
theorem splitWay_textAll (build : Text → BuildM Node) (op : BinaryOp) (tier : Nat)
    (u v : List Piece) (m : Char) :
    splitWay build (Piece.textAll (u ++ .mark m :: v)) ⟨op, tier, (Piece.textAll u).length, 1⟩ =
      (do
        let left ← build (Piece.textAll u)
        let right ← build (Piece.textAll v)
        assemble (.binary op) [left, right]) := by
  have htext : Piece.textAll (u ++ .mark m :: v) = Piece.textAll u ++ m :: Piece.textAll v := by
    simp [Piece.text]
  rw [htext, splitWay_append]

theorem splitCall?_eq_none {t : TreeBuilder} {text : Text} {c : Char} (hc : c ∈ t.tokens.opening)
    (h : c ∉ text) : t.splitCall? text = none := by
  unfold splitCall?
  split
  · rfl
  · split
    · rw [List.findSome?_eq_none_iff]
      intro short _
      dsimp only
      rw [Text.after?_eq_none hc fun hmem => h (List.mem_of_mem_drop hmem)]
    · rfl

end TreeBuilder

/-- The outcome of a compilation, once the literals are taken out: the tables are filled, and the
tree is built from them. -/
theorem Compiler.outcome_compile_eq_bind {style : Precedence} {source text : Text} {ctx : Context}
    (hliterals : (Context.start source).extractLiterals (common style).definition
      (common style).registry = (text, ctx)) :
    ((common style).compile source false).outcome =
      ((common style).resolve text ctx).bind (common style).buildTree := by
  have hcounted := overrun_extractLiterals style source
  rw [hliterals] at hcounted
  rw [compile]
  dsimp only
  rw [hliterals]
  dsimp only
  rw [hcounted, if_neg Bool.false_ne_true, if_neg Bool.false_ne_true]
  cases (common style).resolve text ctx <;> rfl

/-- The outcome of a compilation that gets through to the tables is the tree built from them. -/
theorem Compiler.outcome_compile {style : Precedence} {source text : Text} {ctx ctx' : Context}
    (hliterals : (Context.start source).extractLiterals (common style).definition
      (common style).registry = (text, ctx))
    (hresolve : (common style).resolve text ctx = .ok ctx') :
    ((common style).compile source false).outcome = (common style).buildTree ctx' := by
  rw [outcome_compile_eq_bind hliterals, hresolve]
  rfl

/-- The outcome of a compilation that does not get through to the tables. -/
theorem Compiler.outcome_compile_error {style : Precedence} {source text : Text} {ctx : Context}
    {fault : CompileFault}
    (hliterals : (Context.start source).extractLiterals (common style).definition
      (common style).registry = (text, ctx))
    (hresolve : (common style).resolve text ctx = .error fault) :
    ((common style).compile source false).outcome = .error fault := by
  rw [outcome_compile_eq_bind hliterals, hresolve]
  rfl

/-- The outcome of building, with the tables filled at the end. -/
theorem Compiler.buildTree_eq {c : Compiler} {ctx : Context} (hcancelled : ctx.cancelled = false) :
    c.buildTree ctx =
      match ((TreeBuilder.ofDefinition c.definition c.tokens c.registry ctx).build
        Context.mainName).run { params := ctx.params } with
      | (.error fault, _) => .error fault
      | (.ok root, s) =>
        match root.refresh s.params with
        | (root, none) => .ok (root, s.params)
        | (_, some fault) => .error (.illTyped fault) := by
  have hcheck : Compiler.check ctx = .ok () := by
    rw [Compiler.check, hcancelled]
    rfl
  rw [Compiler.buildTree, hcheck]
  rfl

/-- The tree is the one that is built, with its tables filled for the parameters at the end. -/
theorem Compiler.buildTree_common {style : Precedence} {ctx : Context}
    (hcancelled : ctx.cancelled = false) {node : Node} {s : BuildState}
    (hrun : ((TreeBuilder.common style ctx).build Context.mainName).run { params := ctx.params } =
      (.ok node, s)) (htypable : node.Typable s.params) :
    (Compiler.common style).buildTree ctx = .ok (node.retable s.params, s.params) := by
  rw [buildTree_eq hcancelled]
  change ((TreeBuilder.ofDefinition (Compiler.common style).definition
    (Compiler.common style).tokens (Compiler.common style).registry ctx).build
      Context.mainName).run { params := ctx.params } = (.ok node, s) at hrun
  rw [hrun]
  dsimp only
  rw [htypable.refresh_eq]

namespace PreparedChain

variable {P : PreparedChain}

/-! ### Parts -/

theorem isAtom_of_mem {x : Text} (h : Piece.atom x ∈ P.pieces) : P.family.isAtom x = true :=
  P.isChain.atoms x h

theorem isPart_broken {u : List Piece} (hne : u ≠ []) (h : P.family.follow true u = some true)
    (hatoms : ∀ x, Piece.atom x ∈ u → Piece.atom x ∈ P.pieces) : P.IsPart (.broken u) :=
  ⟨⟨hne, h⟩, hatoms⟩

theorem isPart_chain {c : Chain} (hops : ∀ q ∈ c.rest, q.1 ∈ P.family.operations)
    (hatoms : ∀ x, Piece.atom x ∈ c.pieces P.family → Piece.atom x ∈ P.pieces) :
    P.IsPart (.chain c) :=
  ⟨hops, fun u hu => hatoms _ (Chain.atom_mem_pieces_iff.mpr ⟨u, hu, rfl⟩)⟩

/-- The pieces of a reading. -/
def readPieces (P : PreparedChain) : Reading → List Piece
  | .chain c => c.pieces P.family
  | .broken pieces => pieces

theorem textAll_readPieces (r : Reading) : Piece.textAll (P.readPieces r) = P.text r := by
  cases r with
  | chain c => exact Chain.textAll_pieces P.family c
  | broken pieces => rfl

namespace IsPart

theorem exists_follow {r : Reading} (h : P.IsPart r) :
    ∃ e, P.family.follow true (P.readPieces r) = some e := by
  cases r with
  | chain c => exact ⟨false, Family.follow_chain h.1⟩
  | broken pieces => exact ⟨true, h.1.follow⟩

theorem mem_pieces {r : Reading} (h : P.IsPart r) (x : Text)
    (hx : Piece.atom x ∈ P.readPieces r) : Piece.atom x ∈ P.pieces := by
  cases r with
  | chain c =>
    obtain ⟨u, hu, rfl⟩ := Chain.atom_mem_pieces_iff.mp hx
    exact h.2 u hu
  | broken pieces => exact h.2 x hx

theorem isAtom {r : Reading} (h : P.IsPart r) (x : Text) (hx : Piece.atom x ∈ P.readPieces r) :
    P.family.isAtom x = true :=
  isAtom_of_mem (h.mem_pieces x hx)

theorem not_mem {r : Reading} (h : P.IsPart r) {c : Char} (hmark : c ∉ P.family.marks)
    (hword : isWordChar c = false) : c ∉ P.text r := by
  obtain ⟨e, he⟩ := h.exists_follow
  intro hmem
  rw [← textAll_readPieces] at hmem
  rcases Family.mem_marks_or_isWordChar he h.isAtom hmem with hc | hc
  · exact hmark hc
  · rw [hword] at hc
    cases hc

theorem splitCall?_eq_none {r : Reading} (h : P.IsPart r) :
    P.builder.splitCall? (P.text r) = none := by
  have hnot : '(' ∉ P.text r := h.not_mem (by cases P.family <;> decide) (by decide)
  refine TreeBuilder.splitCall?_eq_none (c := '(') ?_ hnot
  change '(' ∈ (Compiler.common P.style).tokens.opening
  cases P.style <;> decide

/-- Pieces with an operator have a character that is none of names. -/
theorem exists_mark {r : Reading} (h : P.IsPart r)
    (hr : ∀ x, r ≠ .chain ⟨⟨0, x⟩, []⟩) : ∃ c ∈ P.text r, isWordChar c = false := by
  obtain ⟨e, he⟩ := h.exists_follow
  have hmark : ∃ m, Piece.mark m ∈ P.readPieces r := by
    cases r with
    | chain c =>
      obtain ⟨⟨n, x⟩, rest⟩ := c
      cases n with
      | succ n => exact ⟨P.family.prefixMark, by simp [readPieces, Chain.pieces_cons]⟩
      | zero =>
        cases rest with
        | nil => exact absurd rfl (hr x)
        | cons q rest => exact ⟨q.1.mark, by simp [readPieces, Chain.pieces, Chain.restPieces]⟩
    | broken pieces =>
      obtain ⟨m, -, hm⟩ := Family.exists_mark_of_follow h.1.follow h.1.ne_nil
      exact ⟨m, hm⟩
  obtain ⟨m, hm⟩ := hmark
  refine ⟨m, ?_, Family.isWordChar_of_mem_marks (Family.mark_mem_of_follow he hm)⟩
  rw [← textAll_readPieces]
  exact List.mem_flatMap.mpr ⟨_, hm, List.mem_singleton_self m⟩

/-- A text that starts with an operator starts with a piece that is one. -/
theorem exists_of_text_eq_cons {r : Reading} (h : P.IsPart r) {m : Char} {rest : Text}
    (hm : isWordChar m = false) (htext : P.text r = m :: rest) :
    ∃ pieces, P.readPieces r = .mark m :: pieces ∧ Piece.textAll pieces = rest := by
  rw [← textAll_readPieces] at htext
  cases hpieces : P.readPieces r with
  | nil =>
    rw [hpieces] at htext
    cases htext
  | cons piece pieces =>
    rw [hpieces] at htext
    cases piece with
    | mark c =>
      obtain ⟨rfl, rfl⟩ := List.cons.inj htext
      exact ⟨pieces, rfl, rfl⟩
    | atom x =>
      have hx := h.isAtom x (by rw [hpieces]; exact List.mem_cons_self ..)
      obtain ⟨c, x, rfl⟩ := List.exists_cons_of_ne_nil (Family.atom_ne_nil hx)
      obtain ⟨rfl, -⟩ := List.cons.inj htext
      rw [Family.isWordChar_of_mem_atom hx (List.mem_cons_self ..)] at hm
      cases hm

theorem text_ne_nil {r : Reading} (h : P.IsPart r) : P.text r ≠ [] := by
  by_cases hr : ∃ x, r = .chain ⟨⟨0, x⟩, []⟩
  · obtain ⟨x, rfl⟩ := hr
    have hx := isAtom_of_mem (h.2 ⟨0, x⟩ (List.mem_singleton_self _))
    simpa [text, Chain.text, Operand.text] using Family.atom_ne_nil hx
  · obtain ⟨c, hc, -⟩ := h.exists_mark fun x hx => hr ⟨x, hx⟩
    exact List.ne_nil_of_mem hc

theorem symbol?_eq_none {r : Reading} (h : P.IsPart r) :
    P.builder.context.symbol? (P.text r) = none := by
  change P.context.symbols.lookup (P.text r) = none
  rw [P.prepared.symbols, List.lookup_cons, Context.mainName, beq_false_of_ne h.text_ne_nil]
  rfl

end IsPart

/-- The main symbol stands for the text of the chain. -/
theorem symbol?_mainName (P : PreparedChain) :
    P.builder.context.symbol? [] = some { text := Piece.textAll P.pieces, isCall := false } := by
  change P.context.symbols.lookup [] = _
  rw [P.prepared.symbols, Context.mainName, List.lookup_cons_self]

/-- Building the main symbol builds the text of the chain, within a depth that is enough. -/
theorem build_mainName (P : PreparedChain) : ∃ depth, (Piece.textAll P.pieces).length ≤ depth ∧
    P.builder.build Context.mainName = P.builder.buildStep (P.builder.buildWithin depth) [] := by
  refine ⟨2 * (Piece.textAll P.pieces).length + 3, by omega, ?_⟩
  have hbound : P.builder.depthBound = 2 * (Piece.textAll P.pieces).length + 4 := by
    change (P.context.symbols.length + 1) * (P.context.symbols.foldl _ 0 + 2) = _
    rw [P.prepared.symbols]
    simp only [List.length_singleton, List.foldl_cons, List.foldl_nil, Nat.zero_max]
    omega
  rw [TreeBuilder.build, hbound]
  rfl

/-! ### Atoms -/

theorem type_mem_of_value? {f : Family} {x : Text} {v : Value} (h : f.value? x = some v) :
    v.type ∈ f.types := by
  cases f with
  | arithmetic =>
    simp only [Family.value?] at h
    split at h
    · obtain rfl := Option.some.inj h
      exact List.mem_cons_self ..
    · cases h
  | logical =>
    simp only [Family.value?] at h
    split at h
    · obtain rfl := Option.some.inj h
      decide
    · split at h
      · obtain rfl := Option.some.inj h
        decide
      · cases h

/-- An atom is a constant or a parameter. -/
theorem yields_atom {x : Text} (hx : Piece.atom x ∈ P.pieces) (build : Text → BuildM Node) :
    P.Yields (P.builder.buildStep build x) (Succeeds (P.Built (.atom x))) := by
  intro s hs
  cases hvalue : P.family.value? x with
  | some v =>
    rw [TreeBuilder.run_buildStep_constant (t := P.builder) (P.prepared.literal x v hx hvalue)]
    exact yields_pure ⟨.literal hvalue, Family.serves_constant (type_mem_of_value? hvalue) _⟩ s hs
  | none =>
    obtain ⟨hconstant, hname⟩ := P.prepared.name x hx hvalue
    cases hindex : Context.parameterIndex? s.params x with
    | none =>
      rw [show P.context.params.map Parameter.name = s.params.map Parameter.name from hs.names.symm]
        at hname
      obtain ⟨p, hp, heq⟩ := List.mem_map.mp hname
      have hne := List.findIdx?_eq_none_iff.mp hindex p hp
      rw [heq, String.toList_ofList, beq_self_eq_true] at hne
      cases hne
    | some id =>
      obtain ⟨hlt, heq, -⟩ := List.findIdx?_eq_some_iff_getElem.mp hindex
      have hid : P.names[id]? = some (String.ofList x) := by
        rw [← hs.names, List.getElem?_map, List.getElem?_eq_getElem hlt, ← eq_of_beq heq,
          String.ofList_toList, Option.map_some]
      have hlt' : id < P.context.params.length := length_params hs.names ▸ hlt
      rw [TreeBuilder.run_buildStep_parameter (t := P.builder) hconstant hindex]
      exact yields_pure ⟨.parameter hvalue hid,
        Family.serves_parameter (Family.supports_maskAt_pinned hlt')⟩ s hs

/-- A text with an operator is no name. -/
theorem yields_buildStep {r : Reading} (h : P.IsPart r) (hr : ∀ x, r ≠ .chain ⟨⟨0, x⟩, []⟩)
    {build : Text → BuildM Node} {Q : Except CompileFault Node → Prop}
    (hbuild : P.Yields (TreeBuilder.remember (P.text r) (P.builder.buildComposite build (P.text r)))
      Q) : P.Yields (P.builder.buildStep build (P.text r)) Q := by
  obtain ⟨c, hc, hword⟩ := h.exists_mark hr
  intro s hs
  have hparameter : Context.parameterIndex? s.params (P.text r) = none := by
    refine List.findIdx?_eq_none_iff.mpr fun p hp => beq_false_of_ne fun heq => ?_
    obtain ⟨q, hq, hname⟩ := List.mem_map.mp (hs.names ▸ List.mem_map_of_mem hp)
    have hatom := isAtom_of_mem (P.prepared.params q hq).1
    rw [hname, heq] at hatom
    rw [Family.isWordChar_of_mem_atom hatom hc] at hword
    cases hword
  rw [TreeBuilder.run_buildStep_text (t := P.builder)
    (P.prepared.composite _ (.inr ⟨c, hc, hword⟩)) hparameter h.symbol?_eq_none]
  exact hbuild s hs

/-! ### Splits and prefix operators -/

/-- A prefix operator comes off the front of a text. -/
def prefixWay (build : Text → BuildM Node) (op : UnaryOp) (rest : Text) : BuildM Node := do
  let operand ← build rest
  TreeBuilder.assemble (.unary op) [operand]

theorem unary_builder (P : PreparedChain) :
    P.builder.unary = [(.negate, ['-']), (.not, ['!'])] := by
  change [(UnaryOp.negate, (Compiler.common P.style).tokens.markers.marked _),
    (UnaryOp.not, (Compiler.common P.style).tokens.markers.marked _)] = _
  cases P.style <;> rfl

theorem unaryWays_prefixMark (build : Text → BuildM Node) {rest : Text} (h : rest ≠ []) :
    P.builder.unaryWays build (P.family.prefixMark :: rest) =
      [prefixWay build P.family.prefixOp rest] := by
  obtain ⟨c, rest, rfl⟩ := List.exists_cons_of_ne_nil h
  rw [TreeBuilder.unaryWays, P.unary_builder]
  cases P.family <;> rfl

theorem exists_of_mem_unaryWays {build : Text → BuildM Node} {text : Text} {way : BuildM Node}
    (h : way ∈ P.builder.unaryWays build text) :
    ∃ m op rest, isWordChar m = false ∧ text = m :: rest ∧ rest ≠ [] ∧
      way = prefixWay build op rest := by
  rw [TreeBuilder.unaryWays, P.unary_builder] at h
  obtain ⟨⟨op, token⟩, hmem, hway⟩ := List.mem_filterMap.mp h
  have htoken : ∃ m, token = [m] ∧ isWordChar m = false := by
    rcases List.mem_pair.mp hmem with heq | heq <;> cases heq
    · exact ⟨'-', rfl, by decide⟩
    · exact ⟨'!', rfl, by decide⟩
  obtain ⟨m, rfl, hm⟩ := htoken
  dsimp only at hway
  split at hway
  · cases hway
  · cases hway
  · next rest hne hafter =>
    exact ⟨m, op, rest, hm, Text.after?_eq_some_iff.mp hafter, fun hnil => hne hnil,
      (Option.some.inj hway).symm⟩

section Composite

variable {build : Text → BuildM Node} {n : Nat} (hbuild : ∀ r, P.IsPart r → (P.text r).length < n →
  P.Yields (build (P.text r)) (P.Outcome r))
include hbuild

/-- A split fails if the part on its left ends in an operator. -/
theorem yields_splitWay_left {u v : List Piece} {m : Char} (hu : P.IsPart (.broken u))
    (hlen : (Piece.textAll (u ++ .mark m :: v)).length ≤ n) (op : BinaryOp) (tier : Nat) :
    P.Yields (TreeBuilder.splitWay build (Piece.textAll (u ++ .mark m :: v))
      ⟨op, tier, (Piece.textAll u).length, 1⟩) Fails := by
  rw [TreeBuilder.splitWay_textAll]
  refine Yields.bind_fails (hbuild _ hu ?_) _
  simp only [Piece.textAll_append, Piece.textAll_cons, Piece.text, List.length_append,
    List.length_singleton] at hlen
  simp only [text]
  omega

/-- A split fails if the part on its right ends in an operator. -/
theorem yields_splitWay_right {c : Chain} {v : List Piece} {m : Char} (hc : P.IsPart (.chain c))
    (hv : P.IsPart (.broken v))
    (hlen : (Piece.textAll (c.pieces P.family ++ .mark m :: v)).length ≤ n) (op : BinaryOp)
    (tier : Nat) :
    P.Yields (TreeBuilder.splitWay build (Piece.textAll (c.pieces P.family ++ .mark m :: v))
      ⟨op, tier, (Piece.textAll (c.pieces P.family)).length, 1⟩) Fails := by
  rw [TreeBuilder.splitWay_textAll]
  simp only [Piece.textAll_append, Piece.textAll_cons, Piece.text, List.length_append,
    List.length_singleton, Chain.textAll_pieces] at hlen
  rw [Chain.textAll_pieces]
  refine yields_bind (hbuild _ hc (by simp only [text]; omega)) fun left _ => ?_
  exact Yields.bind_fails (hbuild _ hv (by simp only [text]; omega)) _

/-- A split between two chains gives the tree of its operator. -/
theorem yields_splitWay {c d : Chain} {op : Operation} (hop : op ∈ P.family.operations)
    (hc : P.IsPart (.chain c)) (hd : P.IsPart (.chain d))
    (hlen : (Piece.textAll (c.pieces P.family ++ .mark op.mark :: d.pieces P.family)).length ≤ n)
    (tier : Nat) :
    P.Yields (TreeBuilder.splitWay build
      (Piece.textAll (c.pieces P.family ++ .mark op.mark :: d.pieces P.family))
      ⟨.operate op, tier, (Piece.textAll (c.pieces P.family)).length, 1⟩)
      (Succeeds fun node => ∀ text, P.Built (.infixed op (c.tree P.style) (d.tree P.style))
        (node.fold Registry.standard text)) := by
  rw [TreeBuilder.splitWay_textAll]
  simp only [Piece.textAll_append, Piece.textAll_cons, Piece.text, List.length_append,
    List.length_singleton, Chain.textAll_pieces] at hlen
  rw [Chain.textAll_pieces, Chain.textAll_pieces]
  refine yields_bind (hbuild _ hc (by simp only [text]; omega)) fun left hleft => ?_
  refine yields_bind (hbuild _ hd (by simp only [text]; omega)) fun right hright => ?_
  have hcount : (Head.binary (.operate op)).takes [left, right].length := rfl
  refine yields_assemble (List.mem_cons_of_mem _ (List.mem_map_of_mem hop)) hcount ?_
    (.infixed hleft.shape hright.shape)
  simpa using ⟨hleft.serves, hright.serves⟩

/-- Every split of what ends in an operator fails. -/
theorem yields_candidate_broken {pieces : List Piece} (h : P.IsPart (.broken pieces))
    (hlen : (Piece.textAll pieces).length ≤ n) {s : TreeBuilder.Split}
    (hs : s ∈ P.builder.candidates (Piece.textAll pieces)) :
    P.Yields (TreeBuilder.splitWay build (Piece.textAll pieces) s) Fails := by
  obtain ⟨o, ho, u, v, rfl, rfl, hu, hv⟩ :=
    TreeBuilder.exists_of_mem_candidates h.1.follow h.isAtom hs
  obtain ⟨⟨-, hfollow⟩, hatoms⟩ := h
  rw [Family.follow_append] at hfollow
  obtain ⟨e, he, hend⟩ := Option.bind_eq_some_iff.mp hfollow
  cases e with
  | true =>
    have hpart : P.IsPart (.broken u) :=
      isPart_broken hu he fun x hx => hatoms x (List.mem_append_left _ hx)
    exact yields_splitWay_left hbuild hpart hlen _ _
  | false =>
    obtain ⟨c, hops, rfl⟩ := Chain.exists_of_follow he
    have hleft : P.IsPart (.chain c) :=
      isPart_chain hops fun x hx => hatoms x (List.mem_append_left _ hx)
    have hright : P.IsPart (.broken v) := isPart_broken hv (Family.follow_mark hend) fun x hx =>
      hatoms x (List.mem_append_right _ (List.mem_cons_of_mem _ hx))
    exact yields_splitWay_right hbuild hleft hright hlen _ _

/-- Every split of an operand fails, because the part on the left has only prefix operators. -/
theorem yields_candidate_operand {u : Operand} (h : P.IsPart (.chain ⟨u, []⟩))
    (hlen : (Piece.textAll (u.pieces P.family)).length ≤ n) {s : TreeBuilder.Split}
    (hs : s ∈ P.builder.candidates (Piece.textAll (u.pieces P.family))) :
    P.Yields (TreeBuilder.splitWay build (Piece.textAll (u.pieces P.family)) s) Fails := by
  have hpieces : P.readPieces (.chain ⟨u, []⟩) = u.pieces P.family := List.append_nil _
  obtain ⟨o, ho, v, w, heq, rfl, hv, -⟩ :=
    TreeBuilder.exists_of_mem_candidates (Family.follow_operand P.family u)
      (fun x hx => h.isAtom x (hpieces ▸ hx)) hs
  have hfollow := Family.follow_operand P.family u
  rw [heq, Family.follow_append] at hfollow
  obtain ⟨e, he, -⟩ := Option.bind_eq_some_iff.mp hfollow
  have hatoms : ∀ x, Piece.atom x ∈ v → Piece.atom x ∈ P.pieces := fun x hx =>
    h.mem_pieces x (by rw [hpieces, heq]; exact List.mem_append_left _ hx)
  cases e with
  | true =>
    rw [heq] at hlen ⊢
    exact yields_splitWay_left hbuild (isPart_broken hv he hatoms) hlen _ _
  | false =>
    obtain ⟨before, _, _, _, hrest, -⟩ := @Chain.rest_eq_of_follow P.family ⟨u, []⟩ h.1 v w o.mark
      (hpieces.trans heq) he
    cases before <;> cases hrest

/-- Taking the prefix operator off what ends in an operator fails, because the rest does too. -/
theorem yields_unary_broken {pieces : List Piece} (h : P.IsPart (.broken pieces))
    (hlen : (Piece.textAll pieces).length ≤ n) {way : BuildM Node}
    (hway : way ∈ P.builder.unaryWays build (Piece.textAll pieces)) : P.Yields way Fails := by
  obtain ⟨m, op, rest, hm, heq, hrest, rfl⟩ := exists_of_mem_unaryWays hway
  obtain ⟨pieces, rfl, rfl⟩ := h.exists_of_text_eq_cons hm heq
  have hpart : P.IsPart (.broken pieces) := by
    refine isPart_broken ?_ (Family.follow_mark h.1.follow) fun x hx =>
      h.2 x (List.mem_cons_of_mem _ hx)
    rintro rfl
    exact hrest rfl
  exact Yields.bind_fails (hbuild _ hpart hlen) _

/-- Taking the prefix operator off an operand gives its tree. -/
theorem yields_prefixWay {k : Nat} {x : Text} (h : P.IsPart (.chain ⟨⟨k, x⟩, []⟩))
    (hlen : (P.text (.chain ⟨⟨k, x⟩, []⟩)).length < n) :
    P.Yields (prefixWay build P.family.prefixOp (P.text (.chain ⟨⟨k, x⟩, []⟩)))
      (Succeeds fun node => ∀ text,
        P.Built (Chain.tree P.style ⟨⟨k + 1, x⟩, []⟩) (node.fold Registry.standard text)) := by
  refine yields_bind (hbuild _ h hlen) fun operand hoperand => ?_
  have hcount : (Head.unary P.family.prefixOp).takes [operand].length := rfl
  refine yields_assemble (List.mem_cons_self ..) hcount ?_ (.prefixed hoperand.shape)
  simpa using hoperand.serves

/-- The splits of a chain give its tree: those that are tried first fail, up to the last loosest
operator. -/
theorem yields_firstSuccess_chain {c : Chain} (h : P.IsPart (.chain c)) (hrest : c.rest ≠ [])
    (hlen : (P.text (.chain c)).length ≤ n) :
    P.Yields (P.builder.firstSuccess (P.text (.chain c))
        ((P.builder.candidates (P.text (.chain c))).map
          (TreeBuilder.splitWay build (P.text (.chain c)))))
      (Succeeds fun found => ∃ node, found = some node ∧ P.Built (c.tree P.style) node) := by
  obtain ⟨first, rest⟩ := c
  obtain ⟨before, op, u, after, rfl, hbefore, hafter⟩ := Chain.exists_loosest P.style hrest
  have hatoms : Chain.IsOf P.family (fun x => P.family.isAtom x = true)
      ⟨first, before ++ (op, u) :: after⟩ := ⟨h.1, fun u hu => isAtom_of_mem (h.2 u hu)⟩
  obtain ⟨earlier, later, hcandidates, hearlier⟩ :=
    @TreeBuilder.exists_candidates_eq P.family P.style P.context _ _ _ _ _ hatoms hbefore hafter
  have hops := List.forall_mem_append.mp h.1
  have hops' := List.forall_mem_cons.mp hops.2
  have hmem : ∀ x, Piece.atom x ∈ Chain.pieces P.family ⟨first, before ++ (op, u) :: after⟩ →
      Piece.atom x ∈ P.pieces := h.mem_pieces
  rw [← textAll_readPieces] at hlen ⊢
  rw [Chain.tree_split hbefore hafter]
  change P.Yields (P.builder.firstSuccess _ (((TreeBuilder.common P.style P.context).candidates
    (Piece.textAll (Chain.pieces P.family ⟨first, before ++ (op, u) :: after⟩))).map _)) _
  rw [hcandidates, List.map_append, List.map_cons]
  refine yields_firstSuccess (List.forall_mem_map.mpr fun s hs => ?_) ?_ _
  · obtain ⟨o, v, w, hpieces, rfl, hv⟩ := hearlier s hs
    have hpart : P.IsPart (.broken v) := ⟨hv, fun x hx =>
      hmem x (by rw [hpieces]; exact List.mem_append_left _ hx)⟩
    simp only [readPieces, hpieces] at hlen ⊢
    exact yields_splitWay_left hbuild hpart hlen _ _
  · rw [Chain.pieces_append] at hmem
    simp only [readPieces, Chain.pieces_append] at hlen ⊢
    refine yields_splitWay hbuild hops'.1 (isPart_chain hops.1 fun x hx => ?_)
      (isPart_chain hops'.2 fun x hx => ?_) hlen _
    · exact hmem x (List.mem_append_left _ hx)
    · exact hmem x (List.mem_append_right _ (List.mem_cons_of_mem _ hx))

/-- A part with an operator is built, or fails, as it is read. -/
theorem yields_buildComposite {r : Reading} (h : P.IsPart r)
    (hr : ∀ x, r ≠ .chain ⟨⟨0, x⟩, []⟩) (hlen : (P.text r).length ≤ n) :
    P.Yields (P.builder.buildComposite build (P.text r)) (P.Outcome r) := by
  rw [TreeBuilder.buildComposite, h.splitCall?_eq_none, TreeBuilder.binaryWays_eq_map]
  change P.Yields (P.builder.firstSuccess _ _ >>= _) _
  cases r with
  | broken pieces =>
    refine yields_bind (yields_firstSuccess_fails ?_ _) fun found hfound => ?_
    · exact List.forall_mem_map.mpr fun s hs => yields_candidate_broken hbuild h hlen hs
    subst hfound
    refine yields_bind (yields_firstSuccess_fails ?_ _) fun found hfound => ?_
    · exact fun way hway => yields_unary_broken hbuild h hlen hway
    subst hfound
    exact yields_throw (by simp)
  | chain c =>
    obtain ⟨first, rest⟩ := c
    cases rest with
    | nil =>
      obtain ⟨k, x⟩ := first
      cases k with
      | zero => exact absurd rfl (hr x)
      | succ k =>
        have htext : P.text (.chain ⟨⟨k + 1, x⟩, []⟩) =
            Piece.textAll (Operand.pieces P.family ⟨k + 1, x⟩) := by
          rw [← textAll_readPieces, readPieces, Chain.pieces, Chain.restPieces, List.flatMap_nil,
            List.append_nil]
        refine yields_bind (yields_firstSuccess_fails ?_ _) fun found hfound => ?_
        · refine List.forall_mem_map.mpr fun s hs => ?_
          rw [htext] at hs hlen ⊢
          exact yields_candidate_operand hbuild h hlen hs
        subst hfound
        have hpart : P.IsPart (.chain ⟨⟨k, x⟩, []⟩) :=
          ⟨h.1, List.forall_mem_singleton.mpr (h.2 ⟨k + 1, x⟩ (List.mem_singleton_self _))⟩
        have hunary : P.builder.unaryWays build (P.text (.chain ⟨⟨k + 1, x⟩, []⟩)) =
            [] ++ prefixWay build P.family.prefixOp (P.text (.chain ⟨⟨k, x⟩, []⟩)) :: [] :=
          unaryWays_prefixMark build hpart.text_ne_nil
        rw [hunary]
        refine yields_bind (yields_firstSuccess (by simp) (yields_prefixWay hbuild hpart hlen) _)
          fun found hfound => ?_
        obtain ⟨node, rfl, hnode⟩ := hfound
        exact yields_pure hnode
    | cons q rest =>
      refine yields_bind (yields_firstSuccess_chain hbuild h (List.cons_ne_nil _ _) hlen)
        fun found hfound => ?_
      obtain ⟨node, rfl, hnode⟩ := hfound
      exact yields_pure hnode

end Composite

/-! ### All parts -/

/-- The parts of a chain are built, or fail, as they are read. -/
theorem yields_buildWithin (depth : Nat) {r : Reading} (h : P.IsPart r)
    (hlen : (P.text r).length ≤ depth) :
    P.Yields (P.builder.buildWithin depth (P.text r)) (P.Outcome r) := by
  induction depth generalizing r with
  | zero => exact absurd (List.length_eq_zero_iff.mp (Nat.le_zero.mp hlen)) h.text_ne_nil
  | succ depth ih =>
    rw [TreeBuilder.buildWithin]
    by_cases hr : ∃ x, r = .chain ⟨⟨0, x⟩, []⟩
    · obtain ⟨x, rfl⟩ := hr
      have htext : P.text (.chain ⟨⟨0, x⟩, []⟩) = x := by
        simp [text, Chain.text, Operand.text]
      rw [htext]
      exact yields_atom (h.2 ⟨0, x⟩ (List.mem_singleton_self _)) _
    · have hr : ∀ x, r ≠ .chain ⟨⟨0, x⟩, []⟩ := fun x hx => hr ⟨x, hx⟩
      obtain ⟨c, hc, hword⟩ := h.exists_mark hr
      -- what is remembered has to be right for every reading of the text
      have hanswers : P.Yields (P.builder.buildComposite (P.builder.buildWithin depth) (P.text r))
          (P.Answers (P.text r)) := by
        refine yields_answers h rfl fun r' hr' htext => ?_
        rw [← htext] at hlen hc ⊢
        refine yields_buildComposite (n := depth + 1)
          (fun r hr hlt => ih hr (Nat.le_of_lt_succ hlt)) hr' ?_ hlen
        rintro x rfl
        have hx := isAtom_of_mem (hr'.2 ⟨0, x⟩ (List.mem_singleton_self _))
        have hmem : c ∈ x := by simpa [text, Chain.text, Operand.text] using hc
        rw [Family.isWordChar_of_mem_atom hx hmem] at hword
        cases hword
      exact yields_buildStep h hr ((yields_remember hanswers).mono fun outcome houtcome =>
        houtcome r h rfl)

/-- The whole chain is built under the name of the main symbol. -/
theorem yields_build {c : Chain} (hops : ∀ q ∈ c.rest, q.1 ∈ P.family.operations)
    (hpieces : c.pieces P.family = P.pieces) :
    P.Yields (P.builder.build Context.mainName) (Succeeds (P.Built (c.tree P.style))) := by
  have hpart : P.IsPart (.chain c) := isPart_chain hops fun x hx => hpieces ▸ hx
  have htext : P.text (.chain c) = Piece.textAll P.pieces := by
    rw [← textAll_readPieces, readPieces, hpieces]
  obtain ⟨depth, hlen, hdepth⟩ := P.build_mainName
  rw [hdepth]
  intro s hs
  have hparameter : Context.parameterIndex? s.params [] = none := by
    refine List.findIdx?_eq_none_iff.mpr fun p hp => beq_false_of_ne ?_
    obtain ⟨q, hq, hname⟩ := List.mem_map.mp (hs.names ▸ List.mem_map_of_mem hp)
    exact hname ▸ Family.atom_ne_nil (isAtom_of_mem (P.prepared.params q hq).1)
  rw [TreeBuilder.run_buildStep_symbol (t := P.builder) (P.prepared.composite [] (.inl rfl))
    hparameter P.symbol?_mainName, ← htext, if_neg hpart.text_ne_nil]
  exact yields_buildWithin depth hpart (htext ▸ hlen) s hs

theorem kept_start (P : PreparedChain) : P.Kept { params := P.context.params } := by
  refine ⟨rfl, fun mask hmask => ?_, fun key entry hentry => ?_⟩
  · obtain ⟨p, hp, rfl⟩ := List.mem_map.mp hmask
    rw [(P.prepared.params p hp).2.2, TypeMask.supports_all, decide_eq_true_iff]
    exact P.family.goal_ne_unknown
  · simp at hentry

/-- The shape of a tree and what it can produce do not depend on its tables. -/
theorem Built.retable {t : Tree} {node : Node} (h : P.Built t node) (params : List Parameter) :
    P.Built t (node.retable params) := by
  obtain ⟨u, hcovers, htypable, hgoal⟩ := h.serves
  exact ⟨h.shape.restricts (.retable _ _), u, hcovers.retable, htypable, hgoal⟩

/-- Building gives the conventional tree of the chain, unless the splits run out. -/
theorem buildTree_chain (P : PreparedChain) {c : Chain}
    (hops : ∀ q ∈ c.rest, q.1 ∈ P.family.operations) (hpieces : c.pieces P.family = P.pieces)
    (hsplits : ((P.builder.build Context.mainName).run
      { params := P.context.params }).2.splits ≤ maxSplits) :
    ∃ node params, (Compiler.common P.style).buildTree P.context = .ok (node, params) ∧
      P.Built (c.tree P.style) node ∧ params.map Parameter.name = P.names ∧
      ∀ mask ∈ params.map Parameter.supported, mask.supports P.family.goal = true := by
  have hbuild := yields_build hops hpieces _ P.kept_start
  generalize hrun : (P.builder.build Context.mainName).run { params := P.context.params } = result
    at hbuild hsplits
  obtain ⟨outcome, s⟩ := result
  rcases hbuild with ⟨-, hout⟩ | ⟨hs, node, rfl, hnode⟩
  · exact absurd hsplits (Nat.not_le.mpr hout)
  · have htypable : node.Typable s.params :=
      hnode.serves.typable.mono ((widens_pinned_iff hs.names).mpr hs.masks)
    exact ⟨_, _, Compiler.buildTree_common P.prepared.cancelled hrun htypable, hnode.retable _,
      hs.names, hs.masks⟩

end PreparedChain

end Formula
