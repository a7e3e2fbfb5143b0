import Mathlib.Algebra.Group.Nat.Defs
import Mathlib.Data.List.Induction
import Formula.Constants
import Formula.Definition.Basic
import Formula.Literal

/-!
# Chains of operators

A chain is a text without parentheses: operands with an operator between any two of them, where an
operand is an atom after any number of prefix operators. Its conventional tree is made from left to
right. An operator takes the tree made so far as its left operand, down to the operators that bind
looser than it does.

A chain is also a sequence of pieces, single operators and atoms. An operator stands where an operand
is expected, as a prefix, or after an atom, between two operands; so a sequence that has been cut at
an operator is read in one way only, from either end of the cut.

## Main definitions

* `Family`: the arithmetic and the logical operators.
* `Operand`, `Chain`, `Chain.text`: chains.
* `Tree`, `Chain.tree`: the conventional tree of a chain.
* `Piece`, `Family.follow`: chains as sequences of pieces.

## Main results

* `Chain.tree_split`: the conventional tree has the last of the loosest operators at its root.
* `Chain.exists_loosest`: a chain with operators has a last one of the loosest.
* `Chain.exists_of_follow`: a sequence of pieces that ends after an atom is a chain.
-/

namespace Formula

/-! ### Families of operators -/

/-- Operators that work together on values of one type. -/
inductive Family where
  | arithmetic
  | logical
  deriving DecidableEq

/-- The first character of the common token of an operation. -/
def Operation.mark (op : Operation) : Char :=
  (Definition.default.token (.operate op)).toList.headD ' '

namespace Text

/-- Whether a text is a plain name: a letter or an underscore, and then letters, digits and
underscores. It neither names a constant nor is a truth value. -/
def isPlainName (text : Text) : Bool :=
  (match text with
    | [] => false
    | c :: rest => (isAlphabetic c || c == '_') && rest.all isWordChar) &&
    !(Constants.named.map fun (name, _) => name.toList).contains text &&
    (Literal.boolean? text).isNone

/-- Whether a text is a decimal integer of 64 bits, without a sign. -/
def isPlainInteger (text : Text) : Bool :=
  text ≠ [] && text.all Char.isDigit && Decimal.naturalOf text < 2 ^ 63

end Text

namespace Family

/-- The operators that stand between two operands. -/
def operations : Family → List Operation
  | arithmetic => [.add, .subtract, .multiply, .divide, .modulo, .power]
  | logical => [.and, .or, .xor]

/-- The operator that stands before an operand. -/
def prefixOp : Family → UnaryOp
  | arithmetic => .negate
  | logical => .not

/-- The character of the operator that stands before an operand. -/
def prefixMark : Family → Char
  | arithmetic => '-'
  | logical => '!'

/-- The characters of all operators. -/
def marks (f : Family) : List Char :=
  f.prefixMark :: f.operations.map Operation.mark

/-- The value of an atom that is a literal. -/
def value? (f : Family) (text : Text) : Option Value :=
  match f with
  | arithmetic =>
    if text.isPlainInteger then some (.integer (Int64.ofNat (Decimal.naturalOf text))) else none
  | logical =>
    if text = "true".toList then some (.boolean true)
    else if text = "false".toList then some (.boolean false)
    else none

/-- The atoms: literals and plain names. -/
def isAtom (f : Family) (text : Text) : Bool :=
  (f.value? text).isSome || text.isPlainName

end Family

/-! ### Chains -/

/-- An atom after a number of prefix operators. -/
structure Operand where
  prefixes : Nat
  atom : Text
  deriving DecidableEq

/-- Operands with an operator between any two of them. -/
structure Chain where
  first : Operand
  rest : List (Operation × Operand)
  deriving DecidableEq

/-- The text of an operand. -/
def Operand.text (f : Family) (u : Operand) : Text :=
  List.replicate u.prefixes f.prefixMark ++ u.atom

namespace Chain

/-- The text of a chain. -/
def text (f : Family) (c : Chain) : Text :=
  c.first.text f ++ c.rest.flatMap fun (op, u) => op.mark :: u.text f

/-- The operands of a chain. -/
def operands (c : Chain) : List Operand :=
  c.first :: c.rest.map Prod.snd

/-- Whether the operators are those of a family and all atoms satisfy `p`. -/
def IsOf (f : Family) (p : Text → Prop) (c : Chain) : Prop :=
  (∀ q ∈ c.rest, q.1 ∈ f.operations) ∧ ∀ u ∈ c.operands, p u.atom

end Chain

/-! ### Conventional trees -/

/-- The shape of an expression of prefix operators, operators between operands, and atoms. -/
inductive Tree where
  | atom (text : Text)
  | prefixed (operand : Tree)
  | infixed (op : Operation) (left right : Tree)
  deriving DecidableEq

namespace Tree

/-- Adds an operator and its right operand at the right end of a tree. The left operand is what
binds no looser than the operator. -/
def extend (tier : Operation → Nat) (t : Tree) (op : Operation) (operand : Tree) : Tree :=
  match t with
  | infixed o left right =>
    if tier o < tier op then infixed o left (extend tier right op operand)
    else infixed op (infixed o left right) operand
  | t => infixed op t operand

end Tree

/-- The tree of an operand: prefix operators bind tightest. -/
def Operand.tree (u : Operand) : Tree :=
  Nat.repeat Tree.prefixed u.prefixes (.atom u.atom)

/-- How tightly an operation binds. -/
def Operation.tier (style : Precedence) (op : Operation) : Nat :=
  (BinaryOp.operate op).tier style

/-- Adds operators and their right operands in turn. -/
def Tree.extendAll (style : Precedence) (t : Tree) (rest : List (Operation × Operand)) : Tree :=
  rest.foldl (fun t q => t.extend (Operation.tier style) q.1 q.2.tree) t

namespace Chain

/-- The conventional tree of a chain: lower tiers bind looser, and operators of one tier associate
to the left. -/
def tree (style : Precedence) (c : Chain) : Tree :=
  c.first.tree.extendAll style c.rest

variable {style : Precedence}

/-- The operator at the root of a conventional tree is one of the chain. -/
theorem mem_of_tree_eq {first : Operand} {rest : List (Operation × Operand)} {op : Operation}
    {left right : Tree} (h : tree style ⟨first, rest⟩ = .infixed op left right) :
    ∃ u, (op, u) ∈ rest := by
  induction rest using List.reverseRecOn generalizing op left right with
  | nil =>
    simp only [tree, Tree.extendAll, List.foldl_nil, Operand.tree] at h
    cases hn : first.prefixes <;> rw [hn] at h <;> cases h
  | append_singleton rest last ih =>
    obtain ⟨o, u⟩ := last
    simp only [tree, Tree.extendAll, List.foldl_append, List.foldl_cons, List.foldl_nil] at h ih
    generalize List.foldl _ first.tree rest = t at h ih
    cases t with
    | infixed o' l r =>
      rw [Tree.extend] at h
      split at h
      · obtain ⟨v, hv⟩ := ih rfl
        obtain ⟨rfl, -, -⟩ := Tree.infixed.inj h
        exact ⟨v, by simp [hv]⟩
      · obtain ⟨rfl, -, -⟩ := Tree.infixed.inj h
        exact ⟨u, by simp⟩
    | atom x =>
      obtain ⟨rfl, -, -⟩ := Tree.infixed.inj h
      exact ⟨u, by simp⟩
    | prefixed t =>
      obtain ⟨rfl, -, -⟩ := Tree.infixed.inj h
      exact ⟨u, by simp⟩

/-- Operators that bind tighter than the root go to the right of it. -/
theorem extendAll_infixed {op : Operation} {left right : Tree} {rest : List (Operation × Operand)}
    (h : ∀ q ∈ rest, Operation.tier style op < Operation.tier style q.1) :
    (Tree.infixed op left right).extendAll style rest =
      .infixed op left (right.extendAll style rest) := by
  induction rest generalizing right with
  | nil => rfl
  | cons q rest ih =>
    simp only [Tree.extendAll, List.foldl_cons] at ih ⊢
    rw [Tree.extend, if_pos (h q (List.mem_cons_self ..))]
    exact ih fun q hq => h q (List.mem_cons_of_mem _ hq)

/-- The conventional tree has the last of the loosest operators at its root. -/
theorem tree_split {first u : Operand} {before after : List (Operation × Operand)}
    {op : Operation}
    (hbefore : ∀ q ∈ before, Operation.tier style op ≤ Operation.tier style q.1)
    (hafter : ∀ q ∈ after, Operation.tier style op < Operation.tier style q.1) :
    tree style ⟨first, before ++ (op, u) :: after⟩ =
      .infixed op (tree style ⟨first, before⟩) (tree style ⟨u, after⟩) := by
  have hroot : (tree style ⟨first, before⟩).extend (Operation.tier style) op u.tree =
      .infixed op (tree style ⟨first, before⟩) u.tree := by
    cases htree : tree style ⟨first, before⟩ with
    | infixed o left right =>
      obtain ⟨v, hv⟩ := mem_of_tree_eq htree
      rw [Tree.extend, if_neg (Nat.not_lt.mpr (hbefore _ hv))]
    | atom x => rfl
    | prefixed t => rfl
  calc tree style ⟨first, before ++ (op, u) :: after⟩
      = ((tree style ⟨first, before⟩).extend (Operation.tier style) op u.tree).extendAll style
          after := by simp only [tree, Tree.extendAll, List.foldl_append, List.foldl_cons]
    _ = .infixed op (tree style ⟨first, before⟩) (tree style ⟨u, after⟩) := by
      rw [hroot, extendAll_infixed hafter, tree, tree]

/-- A chain with operators has a last one of the loosest. -/
theorem exists_loosest (style : Precedence) {rest : List (Operation × Operand)} (h : rest ≠ []) :
    ∃ before op u after, rest = before ++ (op, u) :: after ∧
      (∀ q ∈ before, Operation.tier style op ≤ Operation.tier style q.1) ∧
      ∀ q ∈ after, Operation.tier style op < Operation.tier style q.1 := by
  induction rest with
  | nil => exact absurd rfl h
  | cons q rest ih =>
    obtain ⟨op, u⟩ := q
    by_cases hrest : rest = []
    · exact ⟨[], op, u, [], by rw [hrest, List.nil_append], by simp, by simp⟩
    obtain ⟨before, op', u', after, rfl, hbefore, hafter⟩ := ih hrest
    by_cases hle : Operation.tier style op' ≤ Operation.tier style op
    · exact ⟨(op, u) :: before, op', u', after, rfl, List.forall_mem_cons.mpr ⟨hle, hbefore⟩,
        hafter⟩
    · refine ⟨[], op, u, _, rfl, by simp, fun q hq => ?_⟩
      rcases List.mem_append.mp hq with hq | hq
      · exact Nat.lt_of_lt_of_le (Nat.lt_of_not_le hle) (hbefore q hq)
      · rcases List.mem_cons.mp hq with rfl | hq
        · exact Nat.lt_of_not_le hle
        · exact Nat.lt_trans (Nat.lt_of_not_le hle) (hafter q hq)

end Chain

/-! ### Pieces -/

/-- An operator or an atom. -/
inductive Piece where
  | mark (c : Char)
  | atom (text : Text)
  deriving DecidableEq

namespace Piece

/-- The text of a piece. -/
def text : Piece → Text
  | mark c => [c]
  | atom text => text

/-- The text of several pieces. -/
def textAll (pieces : List Piece) : Text :=
  pieces.flatMap text

@[simp]
theorem textAll_nil : textAll [] = [] := rfl

@[simp]
theorem textAll_cons (piece : Piece) (pieces : List Piece) :
    textAll (piece :: pieces) = piece.text ++ textAll pieces := rfl

@[simp]
theorem textAll_append (a b : List Piece) : textAll (a ++ b) = textAll a ++ textAll b :=
  List.flatMap_append ..

end Piece

/-- The pieces of an operand. -/
def Operand.pieces (f : Family) (u : Operand) : List Piece :=
  List.replicate u.prefixes (.mark f.prefixMark) ++ [.atom u.atom]

theorem Operand.textAll_pieces (f : Family) (u : Operand) :
    Piece.textAll (u.pieces f) = u.text f := by
  obtain ⟨n, x⟩ := u
  simp only [pieces, text]
  induction n with
  | zero => simp [Piece.text]
  | succ n ih => simpa [List.replicate_succ, Piece.text] using ih

namespace Chain

/-- The pieces of operators and their right operands. -/
def restPieces (f : Family) (rest : List (Operation × Operand)) : List Piece :=
  rest.flatMap fun (op, u) => .mark op.mark :: u.pieces f

/-- The pieces of a chain. -/
def pieces (f : Family) (c : Chain) : List Piece :=
  c.first.pieces f ++ restPieces f c.rest

theorem textAll_restPieces (f : Family) (rest : List (Operation × Operand)) :
    Piece.textAll (restPieces f rest) = rest.flatMap fun (op, u) => op.mark :: u.text f := by
  induction rest with
  | nil => rfl
  | cons q rest ih =>
    rw [restPieces, List.flatMap_cons, ← restPieces, Piece.textAll_append, ih]
    simp [Piece.text, Operand.textAll_pieces]

theorem textAll_pieces (f : Family) (c : Chain) : Piece.textAll (c.pieces f) = c.text f := by
  rw [pieces, Piece.textAll_append, Operand.textAll_pieces, textAll_restPieces, text]

end Chain

namespace Family

/-- Whether an operand is expected after the pieces, if it was before them; nothing if a piece
stands where it cannot. -/
def follow (f : Family) : (expected : Bool) → List Piece → Option Bool
  | expected, [] => some expected
  | true, .mark c :: rest => if c = f.prefixMark then follow f true rest else none
  | true, .atom _ :: rest => follow f false rest
  | false, .mark c :: rest =>
    if c ∈ f.operations.map Operation.mark then follow f true rest else none
  | false, .atom _ :: _ => none

theorem follow_append (f : Family) (expected : Bool) (a b : List Piece) :
    f.follow expected (a ++ b) = (f.follow expected a).bind fun e => f.follow e b := by
  induction a generalizing expected with
  | nil => rw [List.nil_append, follow, Option.bind_some]
  | cons piece a ih =>
    cases expected <;> cases piece <;> simp only [List.cons_append, follow, Option.bind_none, ih]
    all_goals
      split
      · rfl
      · rfl

theorem follow_operand (f : Family) (u : Operand) : f.follow true (u.pieces f) = some false := by
  obtain ⟨n, x⟩ := u
  simp only [Operand.pieces]
  induction n with
  | zero => rfl
  | succ n ih =>
    rw [List.replicate_succ, List.cons_append, follow, if_pos rfl]
    exact ih

theorem follow_restPieces {f : Family} {rest : List (Operation × Operand)}
    (h : ∀ q ∈ rest, q.1 ∈ f.operations) :
    f.follow false (Chain.restPieces f rest) = some false := by
  induction rest with
  | nil => rfl
  | cons q rest ih =>
    obtain ⟨op, u⟩ := q
    have hop : op.mark ∈ f.operations.map Operation.mark :=
      List.mem_map_of_mem (h _ (List.mem_cons_self ..))
    rw [Chain.restPieces, List.flatMap_cons, ← Chain.restPieces, List.cons_append, follow,
      if_pos hop, follow_append, follow_operand, Option.bind_some]
    exact ih fun q hq => h q (List.mem_cons_of_mem _ hq)

/-- A chain ends after an atom. -/
theorem follow_chain {f : Family} {c : Chain} (h : ∀ q ∈ c.rest, q.1 ∈ f.operations) :
    f.follow true (c.pieces f) = some false := by
  rw [Chain.pieces, follow_append, follow_operand, Option.bind_some, follow_restPieces h]

/-- After an operator an operand is expected, whatever it was before. -/
theorem follow_mark {f : Family} {expected e : Bool} {m : Char} {pieces : List Piece}
    (h : f.follow expected (.mark m :: pieces) = some e) : f.follow true pieces = some e := by
  cases expected <;> rw [follow] at h <;> split at h <;> first | exact h | cases h

/-- Pieces after which an operand is expected have an operator among them. -/
theorem exists_mark_of_follow {f : Family} {expected : Bool} {pieces : List Piece}
    (h : f.follow expected pieces = some true) (hne : pieces ≠ []) :
    ∃ m ∈ f.marks, Piece.mark m ∈ pieces := by
  induction pieces generalizing expected with
  | nil => exact absurd rfl hne
  | cons piece pieces ih =>
    cases piece with
    | mark m =>
      refine ⟨m, ?_, List.mem_cons_self ..⟩
      cases expected <;> rw [follow] at h <;> split at h
      · next hm => exact List.mem_cons_of_mem _ hm
      · cases h
      · next hm => exact hm ▸ List.mem_cons_self ..
      · cases h
    | atom x =>
      cases expected <;> rw [follow] at h
      · cases h
      · have hne' : pieces ≠ [] := by
          rintro rfl
          cases h
        obtain ⟨m, hm, hmem⟩ := ih h hne'
        exact ⟨m, hm, List.mem_cons_of_mem _ hmem⟩

theorem mark_injOn {f : Family} {op op' : Operation} (h : op ∈ f.operations)
    (h' : op' ∈ f.operations) (heq : op.mark = op'.mark) : op = op' := by
  have hall : ∀ a ∈ f.operations, ∀ b ∈ f.operations, a.mark = b.mark → a = b := by
    cases f <;> decide
  exact hall op h op' h' heq

end Family

namespace Chain

variable {f : Family}

theorem pieces_cons (f : Family) (n : Nat) (x : Text) (rest : List (Operation × Operand)) :
    pieces f ⟨⟨n + 1, x⟩, rest⟩ = .mark f.prefixMark :: pieces f ⟨⟨n, x⟩, rest⟩ := rfl

theorem restPieces_cons (f : Family) (op : Operation) (u : Operand)
    (rest : List (Operation × Operand)) :
    restPieces f ((op, u) :: rest) = .mark op.mark :: pieces f ⟨u, rest⟩ := rfl

theorem pieces_append (f : Family) (first u : Operand) (before after : List (Operation × Operand))
    (op : Operation) :
    pieces f ⟨first, before ++ (op, u) :: after⟩ =
      pieces f ⟨first, before⟩ ++ .mark op.mark :: pieces f ⟨u, after⟩ := by
  simp [pieces, restPieces]

/-- A sequence of pieces that ends after an atom is a chain. -/
theorem exists_of_follow {pieces : List Piece} (h : f.follow true pieces = some false) :
    ∃ c : Chain, (∀ q ∈ c.rest, q.1 ∈ f.operations) ∧ c.pieces f = pieces := by
  -- the pieces after an atom are operators with their right operands
  have hboth : (f.follow true pieces = some false →
        ∃ c : Chain, (∀ q ∈ c.rest, q.1 ∈ f.operations) ∧ c.pieces f = pieces) ∧
      (f.follow false pieces = some false →
        ∃ rest, (∀ q ∈ rest, q.1 ∈ f.operations) ∧ restPieces f rest = pieces) := by
    clear h
    induction pieces with
    | nil => exact ⟨(by cases ·), fun _ => ⟨[], by simp, rfl⟩⟩
    | cons piece pieces ih =>
      cases piece with
      | mark m =>
        constructor
        · intro h
          rw [Family.follow] at h
          split at h
          · next hm =>
            obtain ⟨⟨⟨n, x⟩, rest⟩, hrest, rfl⟩ := ih.1 h
            exact ⟨⟨⟨n + 1, x⟩, rest⟩, hrest, by rw [pieces_cons, hm]⟩
          · cases h
        · intro h
          rw [Family.follow] at h
          split at h
          · next hm =>
            obtain ⟨op, hop, rfl⟩ := List.mem_map.mp hm
            obtain ⟨⟨u, rest⟩, hrest, rfl⟩ := ih.1 h
            exact ⟨(op, u) :: rest, List.forall_mem_cons.mpr ⟨hop, hrest⟩, rfl⟩
          · cases h
      | atom x =>
        constructor
        · intro h
          obtain ⟨rest, hrest, rfl⟩ := ih.2 h
          exact ⟨⟨⟨0, x⟩, rest⟩, hrest, rfl⟩
        · intro h
          cases h
  exact hboth.1 h

theorem operandPieces_append_inj {u u' : Operand} {a b : List Piece}
    (h : u.pieces f ++ a = u'.pieces f ++ b) : u = u' ∧ a = b := by
  obtain ⟨n, x⟩ := u
  obtain ⟨n', x'⟩ := u'
  induction n generalizing n' with
  | zero =>
    cases n' with
    | zero => simpa [Operand.pieces] using h
    | succ n' => simp [Operand.pieces, List.replicate_succ] at h
  | succ n ih =>
    cases n' with
    | zero => simp [Operand.pieces, List.replicate_succ] at h
    | succ n' =>
      obtain ⟨heq, rfl⟩ := ih n' (List.cons.inj h).2
      simp_all

/-- The pieces of a chain determine it. -/
theorem pieces_injective {c c' : Chain} (hc : ∀ q ∈ c.rest, q.1 ∈ f.operations)
    (hc' : ∀ q ∈ c'.rest, q.1 ∈ f.operations) (h : c.pieces f = c'.pieces f) : c = c' := by
  obtain ⟨first, rest⟩ := c
  obtain ⟨first', rest'⟩ := c'
  obtain ⟨rfl, hrest⟩ := operandPieces_append_inj h
  suffices heq : rest = rest' by rw [heq]
  dsimp only at hc hc' hrest
  clear h
  induction rest generalizing rest' with
  | nil =>
    cases rest' with
    | nil => rfl
    | cons q' rest' => cases hrest
  | cons q rest ih =>
    cases rest' with
    | nil => cases hrest
    | cons q' rest' =>
      obtain ⟨op, u⟩ := q
      obtain ⟨op', u'⟩ := q'
      obtain ⟨hop, htail⟩ := List.forall_mem_cons.mp hc
      obtain ⟨hop', htail'⟩ := List.forall_mem_cons.mp hc'
      rw [restPieces_cons, restPieces_cons, List.cons.injEq, Piece.mark.injEq] at hrest
      obtain rfl := Family.mark_injOn hop hop' hrest.1
      obtain ⟨rfl, hrest⟩ := operandPieces_append_inj hrest.2
      rw [ih htail rest' htail' hrest]

/-- An operator after an atom is one of the operators between the operands. -/
theorem rest_eq_of_follow {c : Chain} (hc : ∀ q ∈ c.rest, q.1 ∈ f.operations) {u v : List Piece}
    {m : Char} (h : c.pieces f = u ++ .mark m :: v) (hu : f.follow true u = some false) :
    ∃ before op w after, c.rest = before ++ (op, w) :: after ∧ op.mark = m ∧
      pieces f ⟨c.first, before⟩ = u ∧ pieces f ⟨w, after⟩ = v := by
  have hfollow := Family.follow_chain hc
  rw [h, Family.follow_append, hu, Option.bind_some] at hfollow
  obtain ⟨l, hl, rfl⟩ := exists_of_follow hu
  obtain ⟨r, hr, rfl⟩ := exists_of_follow (Family.follow_mark hfollow)
  rw [Family.follow] at hfollow
  split at hfollow
  · next hm =>
    obtain ⟨op, hop, rfl⟩ := List.mem_map.mp hm
    have hops : ∀ q ∈ l.rest ++ (op, r.first) :: r.rest, q.1 ∈ f.operations :=
      List.forall_mem_append.mpr ⟨hl, List.forall_mem_cons.mpr ⟨hop, hr⟩⟩
    obtain rfl := @pieces_injective f c ⟨l.first, _⟩ hc hops
      (h.trans (pieces_append f l.first r.first l.rest r.rest op).symm)
    exact ⟨l.rest, op, r.first, r.rest, rfl, rfl, rfl, rfl⟩
  · cases hfollow

/-- The atoms among the pieces of a chain are those of its operands. -/
theorem atom_mem_pieces_iff {c : Chain} {x : Text} :
    Piece.atom x ∈ c.pieces f ↔ ∃ u ∈ c.operands, u.atom = x := by
  have hoperand (u : Operand) : Piece.atom x ∈ u.pieces f ↔ u.atom = x := by
    simp [Operand.pieces, eq_comm]
  simp only [pieces, restPieces, operands, List.mem_append, List.mem_flatMap, List.mem_cons,
    List.mem_map, hoperand, reduceCtorEq, false_or]
  constructor
  · rintro (h | ⟨q, hq, h⟩)
    · exact ⟨_, .inl rfl, h⟩
    · exact ⟨_, .inr ⟨q, hq, rfl⟩, h⟩
  · rintro ⟨u, rfl | ⟨q, hq, rfl⟩, h⟩
    · exact .inl h
    · exact .inr ⟨q, hq, h⟩

end Chain

/-- Atoms hold no operators, so a text that is cut at an operator is cut between its pieces. -/
theorem Piece.exists_of_textAll_eq {m : Char} {pieces : List Piece}
    (hatoms : ∀ x, atom x ∈ pieces → m ∉ x) {a b : Text} (h : textAll pieces = a ++ m :: b) :
    ∃ u v, pieces = u ++ mark m :: v ∧ textAll u = a ∧ textAll v = b := by
  induction pieces generalizing a with
  | nil => simp at h
  | cons piece pieces ih =>
    have hrest : ∀ x, atom x ∈ pieces → m ∉ x := fun x hx =>
      hatoms x (List.mem_cons_of_mem _ hx)
    rw [textAll_cons] at h
    cases piece with
    | mark c =>
      rw [text, List.singleton_append] at h
      cases a with
      | nil =>
        rw [List.nil_append, List.cons.injEq] at h
        obtain ⟨rfl, h⟩ := h
        exact ⟨[], pieces, rfl, rfl, h⟩
      | cons d a =>
        rw [List.cons_append, List.cons.injEq] at h
        obtain ⟨rfl, h⟩ := h
        obtain ⟨u, v, rfl, rfl, rfl⟩ := ih hrest h
        exact ⟨mark c :: u, v, rfl, rfl, rfl⟩
    | atom x =>
      rw [text, List.append_eq_append_iff] at h
      rcases h with ⟨a', rfl, h⟩ | ⟨c, rfl, h⟩
      · obtain ⟨u, v, rfl, rfl, rfl⟩ := ih hrest h
        exact ⟨atom x :: u, v, rfl, rfl, rfl⟩
      · cases c with
        | nil =>
          obtain ⟨u, v, rfl, hu, rfl⟩ := ih hrest (h.symm.trans (List.nil_append _).symm)
          exact ⟨atom _ :: u, v, rfl, by simp [text, hu], rfl⟩
        | cons d c =>
          obtain ⟨rfl, -⟩ := List.cons.inj h
          exact absurd (by simp) (hatoms _ (List.mem_cons_self ..))

end Formula
