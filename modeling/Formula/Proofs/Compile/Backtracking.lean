import Formula.Proofs.Compile.Building
import Formula.Proofs.Compile.FamilyTyping
import Formula.Proofs.Compile.Splits

/-!
# Building with backtracking

While the tree of a chain is built, every part of the chain that is tried is read in one of two
ways: as a chain, which has a tree, or as pieces that end in an operator, which have none. The
texts built before are remembered with their outcomes, so the outcomes have to be those of every
reading. The parameters are narrowed on the way, and undone, but always keep the type of the
family.

## Main definitions

* `Family.Matches`: a node has the shape of a tree, up to folded constants.
* `PreparedChain`: a chain and the tables made from it.
* `Reading`, `PreparedChain.Outcome`: how a part is read, and what comes of it.
* `PreparedChain.Kept`: the invariant of the state.
* `PreparedChain.Yields`: building keeps the invariant and its outcome satisfies `Q`, unless the
  splits run out.

## Main results

* `PreparedChain.yields_firstSuccess`: the first way that succeeds, after ways that fail.
* `PreparedChain.yields_remember`: a text that is remembered has the outcome of its readings.
-/

namespace Formula

/-! ### Nodes with the shape of a tree -/

/-- A node has the shape of a tree: its atoms are constants or parameters, and its operators are
applications. An application of constants that has been assembled may be folded to its value. -/
inductive Family.Matches (f : Family) (registry : Registry) (names : List String) :
    Tree → Node → Prop
  | literal {x : Text} {v : Value} (hvalue : f.value? x = some v) :
      Matches f registry names (.atom x) (.constant v (String.ofList x))
  | parameter {x : Text} {id : Nat} (hvalue : f.value? x = none)
      (hname : names[id]? = some (String.ofList x)) :
      Matches f registry names (.atom x) (.parameter id)
  | prefixed {t : Tree} {n : Node} {typing : Typing} (h : Matches f registry names t n) :
      Matches f registry names (.prefixed t) (.apply (.unary f.prefixOp) [n] typing)
  | infixed {op : Operation} {l r : Tree} {m n : Node} {typing : Typing}
      (hl : Matches f registry names l m) (hr : Matches f registry names r n) :
      Matches f registry names (.infixed op l r) (.apply (.binary (.operate op)) [m, n] typing)
  | folded {t : Tree} {head : Head} {operands : List Node} {node : Node} {v : Value}
      {params params' : List Parameter} (h : Matches f registry names t node)
      (hnode : Node.assemble head operands params = (.ok node, params'))
      (hconstants : node.isFoldable = true) (hvalue : node.constantValue? registry = some v)
      (text : String) : Matches f registry names t (.constant v text)

namespace Family.Matches

variable {f : Family} {registry : Registry} {names : List String}

/-- The shape does not depend on the overloads. -/
theorem restricts {t : Tree} {u n : Node} (h : f.Matches registry names t u)
    (hn : Restricts u n) : f.Matches registry names t n := by
  induction h generalizing n with
  | literal hvalue =>
    cases hn
    exact .literal hvalue
  | parameter hvalue hname =>
    cases hn
    exact .parameter hvalue hname
  | prefixed _ ih =>
    cases hn with
    | @apply _ _ ns _ _ hlen _ hoperands =>
    obtain ⟨m, rfl⟩ := List.length_eq_one_iff.mp hlen.symm
    exact .prefixed (ih (hoperands 0 _ m rfl rfl))
  | infixed _ _ ihl ihr =>
    cases hn with
    | @apply _ _ ns _ _ hlen _ hoperands =>
    obtain ⟨l, r, rfl⟩ := List.length_eq_two.mp hlen.symm
    exact .infixed (ihl (hoperands 0 _ l rfl rfl)) (ihr (hoperands 1 _ r rfl rfl))
  | folded h hnode hconstants hvalue text =>
    cases hn
    exact .folded h hnode hconstants hvalue text

theorem fold {t : Tree} {head : Head} {operands : List Node} {node : Node}
    {params params' : List Parameter} (h : f.Matches registry names t node)
    (hnode : Node.assemble head operands params = (.ok node, params')) (text : String) :
    f.Matches registry names t (node.fold registry text) := by
  rw [Node.fold]
  split
  · next hconstants =>
    split
    · next v hv => exact .folded h hnode hconstants hv text
    · exact h
  · exact h

end Family.Matches

/-! ### Parts of a chain -/

/-- A chain and the tables made from it. -/
structure PreparedChain where
  family : Family
  style : Precedence
  pieces : List Piece
  context : Context
  isChain : IsChain family pieces
  prepared : context.Prepared family pieces

/-- How a part of a chain is read: as a chain, or as pieces that end in an operator. -/
inductive Reading where
  | chain (c : Chain)
  | broken (pieces : List Piece)

namespace PreparedChain

variable (P : PreparedChain)

/-- The tree builder for the tables. -/
def builder : TreeBuilder :=
  TreeBuilder.common P.style P.context

/-- The names of the parameters. -/
def names : List String :=
  P.context.params.map Parameter.name

/-- The parameters are the atoms that are no literals. -/
theorem mem_names_iff {name : String} : name ∈ P.names ↔
    Piece.atom name.toList ∈ P.pieces ∧ P.family.value? name.toList = none := by
  constructor
  · intro h
    obtain ⟨p, hp, rfl⟩ := List.mem_map.mp h
    exact ⟨(P.prepared.params p hp).1, (P.prepared.params p hp).2.1⟩
  · rintro ⟨hatom, hvalue⟩
    have hname := (P.prepared.name _ hatom hvalue).2
    rwa [String.ofList_toList] at hname

/-- The parameters with the type of the family. -/
def pinned : List Parameter :=
  pin P.context.params (List.replicate P.context.params.length P.family.goal)

/-- A node has the shape of a tree and can produce the type of the family. -/
structure Built (t : Tree) (node : Node) : Prop where
  shape : P.family.Matches Registry.standard P.names t node
  serves : P.family.Serves P.pinned node

/-- The text of a reading. -/
def text : Reading → Text
  | .chain c => c.text P.family
  | .broken pieces => Piece.textAll pieces

/-- The operators of a reading are those of the family, and its atoms are those of the chain. -/
def IsPart : Reading → Prop
  | .chain c => c.IsOf P.family fun x => Piece.atom x ∈ P.pieces
  | .broken pieces => IsBroken P.family pieces ∧ ∀ x, Piece.atom x ∈ pieces → Piece.atom x ∈ P.pieces

end PreparedChain

/-- A fault other than the one that ends the compilation. -/
def Fails {α : Type} (outcome : Except CompileFault α) : Prop :=
  ∃ fault, outcome = .error fault ∧ fault ≠ .tooComplex

/-- A result with a property. -/
def Succeeds {α : Type} (Q : α → Prop) (outcome : Except CompileFault α) : Prop :=
  ∃ a, outcome = .ok a ∧ Q a

namespace PreparedChain

variable (P : PreparedChain)

/-- What comes of building a part: a chain gets its conventional tree, all else fails. -/
def Outcome : Reading → Except CompileFault Node → Prop
  | .chain c => Succeeds (P.Built (c.tree P.style))
  | .broken _ => Fails

/-- The outcome is right for every reading of a text. -/
def Answers (text : Text) (outcome : Except CompileFault Node) : Prop :=
  ∀ r, P.IsPart r → P.text r = text → P.Outcome r outcome

/-- The parameters are those of the tables and may have the type of the family, and the outcomes
that are remembered are right. -/
structure Kept (s : BuildState) : Prop where
  names : s.params.map Parameter.name = P.names
  masks : ∀ mask ∈ s.masks, mask.supports P.family.goal = true
  built : ∀ (key : BuildKey) entry, s.built[key]? = some entry →
    P.Answers key.text (entry.map Prod.fst) ∧ ∀ node masks, entry = .ok (node, masks) →
      masks.length = P.names.length ∧ ∀ mask ∈ masks, mask.supports P.family.goal = true

end PreparedChain

/-- The compilation has been ended because too many splits have been tried. -/
def IsExhausted {α : Type} (result : Except CompileFault α × BuildState) : Prop :=
  result.1 = .error .tooComplex ∧ maxSplits < result.2.splits

/-- Building keeps the invariant and its outcome satisfies `Q`, unless the splits run out. -/
def PreparedChain.Yields (P : PreparedChain) {α : Type} (m : BuildM α)
    (Q : Except CompileFault α → Prop) : Prop :=
  ∀ s, P.Kept s → IsExhausted (m.run s) ∨ (P.Kept (m.run s).2 ∧ Q (m.run s).1)

namespace PreparedChain

variable {P : PreparedChain} {α β : Type} {Q Q' : Except CompileFault α → Prop}

/-! ### Rules -/

theorem Yields.mono {m : BuildM α} (h : P.Yields m Q) (hQ : ∀ outcome, Q outcome → Q' outcome) :
    P.Yields m Q' := by
  intro s hs
  rcases h s hs with hout | ⟨hs', hQ'⟩
  · exact .inl hout
  · exact .inr ⟨hs', hQ _ hQ'⟩

theorem yields_pure {Q : α → Prop} {a : α} (h : Q a) : P.Yields (pure a) (Succeeds Q) :=
  fun _ hs => .inr ⟨hs, a, rfl, h⟩

theorem yields_throw {fault : CompileFault} (h : fault ≠ .tooComplex) :
    P.Yields (throw fault : BuildM α) Fails :=
  fun _ hs => .inr ⟨hs, fault, rfl, h⟩

theorem yields_bind {m : BuildM α} {g : α → BuildM β} {Q : α → Prop}
    {R : Except CompileFault β → Prop} (hm : P.Yields m (Succeeds Q))
    (hg : ∀ a, Q a → P.Yields (g a) R) : P.Yields (m >>= g) R := by
  intro s hs
  rw [BuildM.run_bind]
  have h := hm s hs
  cases hrun : m.run s with
  | mk outcome s' =>
  rw [hrun] at h
  rcases h with ⟨hout, hsplits⟩ | ⟨hs', a, hok, ha⟩
  · obtain rfl := hout
    exact .inl ⟨rfl, hsplits⟩
  · obtain rfl := hok
    exact hg a ha s' hs'

theorem Yields.bind_fails {m : BuildM α} (hm : P.Yields m Fails) (g : α → BuildM β) :
    P.Yields (m >>= g) Fails := by
  intro s hs
  rw [BuildM.run_bind]
  have h := hm s hs
  cases hrun : m.run s with
  | mk outcome s' =>
  rw [hrun] at h
  rcases h with ⟨hout, hsplits⟩ | ⟨hs', fault, herror, hne⟩
  · obtain rfl := hout
    exact .inl ⟨rfl, hsplits⟩
  · obtain rfl := herror
    exact .inr ⟨hs', fault, rfl, hne⟩

/-- Outcomes that are right for one reading at a time are right for all of them. -/
theorem yields_answers {m : BuildM Node} {text : Text} {r : Reading} (hr : P.IsPart r)
    (htext : P.text r = text)
    (h : ∀ r, P.IsPart r → P.text r = text → P.Yields m (P.Outcome r)) :
    P.Yields m (P.Answers text) := by
  intro s hs
  by_cases hout : IsExhausted (m.run s)
  · exact .inl hout
  · have hall (r : Reading) (hr : P.IsPart r) (htext : P.text r = text) :
        P.Kept (m.run s).2 ∧ P.Outcome r (m.run s).1 :=
      (h r hr htext s hs).resolve_left hout
    exact .inr ⟨(hall r hr htext).1, fun r hr htext => (hall r hr htext).2⟩

end PreparedChain

/-! ### Attempts -/

namespace TreeBuilder

/-- The state after a split has been counted. -/
def spent (s : BuildState) : BuildState :=
  { s with splits := s.splits + 1 }

theorem run_attempt (t : TreeBuilder) (text : Text) (way : BuildM Node) (s : BuildState) :
    (t.attempt text way).run s =
      if maxSplits < s.splits + 1 then (.error .tooComplex, spent s)
      else
        match way.run (spent s) with
        | (.ok node, s') => (.ok (some (node.fold t.registry (t.plain text))), s')
        | (.error .tooComplex, s') => (.error .tooComplex, s')
        | (.error _, s') => (.ok none, { s' with params := s.params }) := by
  have hspend : spendSplit.run s =
      if maxSplits < s.splits + 1 then (.error .tooComplex, spent s) else (.ok (), spent s) := by
    rw [spendSplit, BuildM.run_bind, BuildM.run_modify]
    dsimp only
    rw [BuildM.run_bind, BuildM.run_get]
    dsimp only
    split
    · rfl
    · rfl
  rw [attempt, BuildM.run_bind, hspend]
  by_cases hlimit : maxSplits < s.splits + 1
  · rw [if_pos hlimit, if_pos hlimit]
  · rw [if_neg hlimit, if_neg hlimit]
    dsimp only
    rw [BuildM.run_bind, BuildM.run_get]
    dsimp only
    rw [BuildM.run_bind, BuildM.run_observe]
    dsimp only
    rcases way.run (spent s) with ⟨fault | node, s'⟩
    · cases fault <;> rfl
    · rfl

end TreeBuilder

namespace PreparedChain

variable {P : PreparedChain} {α β : Type}

theorem Kept.withParams {s : BuildState} (h : P.Kept s) {params : List Parameter}
    (hnames : params.map Parameter.name = P.names)
    (hmasks : ∀ mask ∈ params.map Parameter.supported, mask.supports P.family.goal = true) :
    P.Kept { s with params } :=
  ⟨hnames, hmasks, h.built⟩

theorem Kept.spent {s : BuildState} (h : P.Kept s) : P.Kept (TreeBuilder.spent s) :=
  ⟨h.names, h.masks, h.built⟩

/-- An attempt at a way that succeeds. -/
theorem yields_attempt {way : BuildM Node} {Q : Node → Prop}
    (h : P.Yields way (Succeeds fun node => ∀ text, Q (node.fold Registry.standard text)))
    (text : Text) :
    P.Yields (P.builder.attempt text way) (Succeeds fun found => ∃ node, found = some node ∧ Q node)
    := by
  intro s hs
  rw [TreeBuilder.run_attempt]
  split
  · next hlimit => exact .inl ⟨rfl, hlimit⟩
  · have hway := h _ hs.spent
    cases hrun : way.run (TreeBuilder.spent s) with
    | mk outcome s' =>
    rw [hrun] at hway
    rcases hway with ⟨hout, hsplits⟩ | ⟨hs', node, hok, hnode⟩
    · obtain rfl := hout
      exact .inl ⟨rfl, hsplits⟩
    · obtain rfl := hok
      exact .inr ⟨hs', _, rfl, _, rfl, hnode _⟩

/-- An attempt at a way that fails is undone. -/
theorem Yields.attempt_fails {way : BuildM Node} (h : P.Yields way Fails) (text : Text) :
    P.Yields (P.builder.attempt text way) (Succeeds fun found => found = none) := by
  intro s hs
  rw [TreeBuilder.run_attempt]
  split
  · next hlimit => exact .inl ⟨rfl, hlimit⟩
  · have hway := h _ hs.spent
    cases hrun : way.run (TreeBuilder.spent s) with
    | mk outcome s' =>
    rw [hrun] at hway
    rcases hway with ⟨hout, hsplits⟩ | ⟨hs', fault, herror, hne⟩
    · obtain rfl := hout
      exact .inl ⟨rfl, hsplits⟩
    · obtain rfl := herror
      have hundone : P.Kept { s' with params := s.params } := hs'.withParams hs.names hs.masks
      cases fault with
      | tooComplex => exact absurd rfl hne
      | _ => exact .inr ⟨hundone, none, rfl, rfl⟩

/-- Ways that fail leave it to the ways after them. -/
theorem yields_firstSuccess_append {R : Except CompileFault (Option Node) → Prop}
    {earlier ways : List (BuildM Node)} {text : Text} (hearlier : ∀ way ∈ earlier, P.Yields way Fails)
    (h : P.Yields (P.builder.firstSuccess text ways) R) :
    P.Yields (P.builder.firstSuccess text (earlier ++ ways)) R := by
  induction earlier with
  | nil => exact h
  | cons way earlier ih =>
    obtain ⟨hway, hearlier⟩ := List.forall_mem_cons.mp hearlier
    rw [List.cons_append, TreeBuilder.firstSuccess]
    refine yields_bind (hway.attempt_fails text) fun found hfound => ?_
    subst hfound
    exact ih hearlier

/-- The first way that succeeds, after ways that fail. -/
theorem yields_firstSuccess {Q : Node → Prop} {earlier later : List (BuildM Node)}
    {way : BuildM Node} (hearlier : ∀ way ∈ earlier, P.Yields way Fails)
    (hway : P.Yields way (Succeeds fun node => ∀ text, Q (node.fold Registry.standard text)))
    (text : Text) :
    P.Yields (P.builder.firstSuccess text (earlier ++ way :: later))
      (Succeeds fun found => ∃ node, found = some node ∧ Q node) := by
  refine yields_firstSuccess_append hearlier ?_
  rw [TreeBuilder.firstSuccess]
  refine yields_bind (yields_attempt hway text) fun found hfound => ?_
  obtain ⟨node, rfl, hnode⟩ := hfound
  exact yields_pure ⟨node, rfl, hnode⟩

/-- No way succeeds. -/
theorem yields_firstSuccess_fails {ways : List (BuildM Node)}
    (h : ∀ way ∈ ways, P.Yields way Fails) (text : Text) :
    P.Yields (P.builder.firstSuccess text ways) (Succeeds fun found => found = none) := by
  rw [← List.append_nil ways]
  exact yields_firstSuccess_append h (yields_pure rfl)

/-! ### Assembling -/

theorem length_params {params : List Parameter} (h : params.map Parameter.name = P.names) :
    params.length = P.context.params.length := by
  simpa [names] using congrArg List.length h

theorem pinned_pinned (P : PreparedChain) : Pinned P.pinned :=
  P.family.pinned_pinned P.context.params

theorem widens_pinned_iff {params : List Parameter} (h : params.map Parameter.name = P.names) :
    Widens P.pinned params ↔
      ∀ mask ∈ params.map Parameter.supported, mask.supports P.family.goal = true :=
  Family.widens_pinned_iff (length_params h)

/-- Operands that can produce the type of the family are assembled to a node that can. -/
theorem yields_assemble {head : Head} (hhead : head ∈ P.family.heads) {operands : List Node}
    (hcount : head.takes operands.length) (hoperands : ∀ n ∈ operands, P.family.Serves P.pinned n)
    {t : Tree}
    (hshape : P.family.Matches Registry.standard P.names t (Node.undetermined head operands)) :
    P.Yields (TreeBuilder.assemble head operands)
      (Succeeds fun node => ∀ text, P.Built t (node.fold Registry.standard text)) := by
  intro s hs
  have hhead := Family.admits_of_mem_heads hhead hcount
  obtain ⟨node, params, hassemble, hwidens, hserves⟩ := Family.serves_assemble P.pinned_pinned hhead
    hoperands ((widens_pinned_iff hs.names).mpr hs.masks)
  have hnames : params.map Parameter.name = P.names := by
    have hnarrows := Node.narrows_assemble head operands s.params
    rw [hassemble] at hnarrows
    exact hnarrows.1.trans hs.names
  have hrun : (TreeBuilder.assemble head operands).run s = (.ok node, { s with params }) := by
    rw [TreeBuilder.assemble, BuildM.run_bind, BuildM.run_get]
    dsimp only
    rw [hassemble]
    rfl
  rw [hrun]
  refine .inr ⟨hs.withParams hnames ((widens_pinned_iff hnames).mp hwidens), node, rfl,
    fun text => ⟨?_, ?_⟩⟩
  · exact (hshape.restricts (Node.restricts_assemble hassemble)).fold hassemble text
  · exact Family.serves_fold hhead hoperands hassemble hserves Registry.standard text

/-! ### Remembering -/

theorem Kept.withMasks {s : BuildState} (h : P.Kept s) {masks : List TypeMask}
    (hlen : masks.length = P.names.length)
    (hmasks : ∀ mask ∈ masks, mask.supports P.family.goal = true) : P.Kept (s.withMasks masks) := by
  have hlen' : masks.length = s.params.length := by rw [hlen, ← h.names, List.length_map]
  refine h.withParams ?_ ?_
  · rw [List.map_zipWith, ← h.names]
    refine List.ext_getElem (by simp [hlen']) fun i hi hi' => ?_
    simp
  · rw [List.map_zipWith]
    intro mask hmask
    obtain ⟨i, hi⟩ := List.mem_iff_getElem?.mp hmask
    obtain ⟨p, m, -, hm, rfl⟩ := List.getElem?_zipWith_eq_some.mp hi
    exact hmasks _ (List.mem_of_getElem? hm)

theorem Kept.remember {s : BuildState} (h : P.Kept s) (key : BuildKey)
    {outcome : Except CompileFault Node} (houtcome : P.Answers key.text outcome) :
    P.Kept { s with
      built := s.built.insert key (outcome.map fun node => (node, s.masks)) } := by
  refine ⟨h.names, h.masks, fun key' entry hentry => ?_⟩
  rw [Std.HashMap.getElem?_insert] at hentry
  split at hentry
  · next heq =>
    obtain rfl := eq_of_beq heq
    obtain rfl := Option.some.inj hentry
    refine ⟨?_, fun node masks hok => ?_⟩
    · cases outcome <;> exact houtcome
    · cases outcome with
      | error fault => cases hok
      | ok n =>
        obtain ⟨-, rfl⟩ := Prod.mk.inj (Except.ok.inj hok)
        exact ⟨by rw [← h.names, BuildState.masks, List.length_map, List.length_map], h.masks⟩
  · exact h.built key' entry hentry

/-- A text that is remembered has the outcome of its readings. -/
theorem yields_remember {text : Text} {build : BuildM Node} (h : P.Yields build (P.Answers text)) :
    P.Yields (TreeBuilder.remember text build) (P.Answers text) := by
  intro s hs
  rw [TreeBuilder.remember, BuildM.run_bind, BuildM.run_get]
  dsimp only
  split
  · next fault hfound =>
    exact .inr ⟨hs, (hs.built _ _ hfound).1⟩
  · next node masks hfound =>
    obtain ⟨hanswers, hmasks⟩ := hs.built _ _ hfound
    obtain ⟨hlen, hmasks⟩ := hmasks node masks rfl
    exact .inr ⟨hs.withMasks hlen hmasks, hanswers⟩
  · rw [BuildM.run_bind, BuildM.run_observe]
    dsimp only
    rw [BuildM.run_bind, BuildM.run_modify]
    dsimp only
    have hbuild := h s hs
    cases hrun : build.run s with
    | mk outcome s' =>
    rw [hrun] at hbuild
    rcases hbuild with ⟨hout, hsplits⟩ | ⟨hs', hanswers⟩
    · obtain rfl := hout
      exact .inl ⟨rfl, hsplits⟩
    · have hkept := hs'.remember { text, masks := s.masks } hanswers
      cases outcome with
      | ok node => exact .inr ⟨hkept, hanswers⟩
      | error fault => exact .inr ⟨hkept, hanswers⟩

end PreparedChain

end Formula
