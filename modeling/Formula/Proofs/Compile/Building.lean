import Mathlib.Data.Bool.Basic
import Mathlib.Data.List.Forall2
import Formula.Compile.Basic
import Formula.Proofs.Outcome
import Formula.Proofs.Typing.Assembly

/-!
# The trees that can be built of a text

Building a tree remembers what it has built and undoes what fails, so a tree may come from an
earlier text and may meet parameters that another attempt has narrowed. Which split succeeds
depends on the types that the parameters have left. What every tree has in common does not: it is
put together from trees of the parts of its text. The relation `TreeBuilder.Derives` allows every
way of putting a tree together that the text offers, and what is built is derived. That every tree
is well formed is then an induction over its derivation.

## Main definitions

* `Node.Scoped`: the parameters of a tree are among the first `count` ones.
* `TreeBuilder.Derives`: the trees that a text can be built to.
* `TreeBuilder.Tracks`: the invariant of the state.
* `Keeps`: building keeps an invariant and gives a result with a property.

## Main results

* `BuildM.run_bind` and its companions: running a building step.
* `TreeBuilder.derives_build`: what is built is derived.
* `TreeBuilder.Derives.wellFormed`: what is derived is well formed.
* `Compiler.derives_of_buildTree`: the tree of a compilation is derived, up to its tables.
-/

namespace Formula

/-! ### Well-formed trees -/

namespace Node

/-- Every parameter in the tree is one of the first `count`. -/
inductive Scoped (count : Nat) : Node → Prop
  | constant (v : Value) (text : String) : Scoped count (constant v text)
  | parameter {id : Nat} (h : id < count) : Scoped count (parameter id)
  | apply {head : Head} {operands : List Node} {typing : Typing}
      (hoperands : ∀ n ∈ operands, Scoped count n) : Scoped count (apply head operands typing)

/-- The tree is well formed over a number of parameters. -/
structure WellFormed (count : Nat) (node : Node) : Prop where
  formed : node.Formed
  scope : node.Scoped count

theorem wellFormed_constant (count : Nat) (v : Value) (text : String) :
    WellFormed count (constant v text) :=
  ⟨.constant v text, .constant v text⟩

theorem wellFormed_undetermined {count : Nat} {head : Head} {operands : List Node}
    (hcount : head.takes operands.length) (h : ∀ n ∈ operands, n.WellFormed count) :
    (undetermined head operands).WellFormed count :=
  ⟨.apply hcount (fun _ hs => hs) fun n hn => (h n hn).formed,
    .apply fun n hn => (h n hn).scope⟩

end Node

/-- A tree that restricts a well-formed one is well formed. -/
theorem Restricts.wellFormed {u n : Node} (h : Restricts u n) {count : Nat}
    (hu : u.WellFormed count) : n.WellFormed count := by
  induction h with
  | constant v text => exact hu
  | parameter id => exact hu
  | @apply head us ns tu tn hlen hsigs _ ih =>
    obtain ⟨hformed, hscope⟩ := hu
    cases hformed with
    | apply hcount husigs hus =>
    cases hscope with
    | apply hus' =>
    have hns (n : Node) (hn : n ∈ ns) : n.WellFormed count := by
      obtain ⟨i, hi⟩ := List.mem_iff_getElem?.mp hn
      have hlt : i < us.length := hlen ▸ (List.getElem?_eq_some_iff.mp hi).1
      have hui : us[i]? = some us[i] := List.getElem?_eq_getElem hlt
      have hmem := List.mem_of_getElem? hui
      exact ih i _ n hui hi ⟨hus _ hmem, hus' _ hmem⟩
    exact ⟨.apply (hlen ▸ hcount) (fun s hs => hlen ▸ husigs s (hsigs s hs)) fun n hn =>
      (hns n hn).formed, .apply fun n hn => (hns n hn).scope⟩

theorem Node.WellFormed.fold {count : Nat} {node : Node} (h : node.WellFormed count)
    (registry : Registry) (text : String) : (node.fold registry text).WellFormed count := by
  rw [Node.fold]
  split
  · split
    · exact Node.wellFormed_constant ..
    · exact h
  · exact h

/-! ### Running a building step -/

namespace BuildM

variable {α β : Type}

@[simp]
theorem run_pure (a : α) (s : BuildState) : (pure a : BuildM α).run s = (.ok a, s) := rfl

@[simp]
theorem run_throw (fault : CompileFault) (s : BuildState) :
    (throw fault : BuildM α).run s = (.error fault, s) := rfl

theorem run_bind (m : BuildM α) (f : α → BuildM β) (s : BuildState) :
    (m >>= f).run s =
      match m.run s with
      | (.ok a, s) => (f a).run s
      | (.error fault, s) => (.error fault, s) := by
  change ExceptT.bindCont f (m.run s).1 (m.run s).2 = _
  rcases m.run s with ⟨_ | _, _⟩ <;> rfl

@[simp]
theorem run_get (s : BuildState) : (get : BuildM BuildState).run s = (.ok s, s) := rfl

@[simp]
theorem run_set (s s' : BuildState) : (set s' : BuildM Unit).run s = (.ok (), s') := rfl

@[simp]
theorem run_modify (f : BuildState → BuildState) (s : BuildState) :
    (modify f : BuildM Unit).run s = (.ok (), f s) := rfl

@[simp]
theorem run_observe (m : BuildM α) (s : BuildState) :
    (observe m).run s = (.ok (m.run s).1, (m.run s).2) := rfl

end BuildM

namespace TreeBuilder

section Keys

variable {t : TreeBuilder} {build : Text → BuildM Node} {key : Text} {s : BuildState}

theorem run_buildStep_constant {c : Constant} (h : t.context.constant? key = some c) :
    (t.buildStep build key).run s = (.ok (.constant c.value (String.ofList c.text)), s) := by
  rw [buildStep, h]
  rfl

variable (hconstant : t.context.constant? key = none)
include hconstant

theorem run_buildStep_parameter {id : Nat} (h : Context.parameterIndex? s.params key = some id) :
    (t.buildStep build key).run s = (.ok (.parameter id), s) := by
  rw [buildStep, hconstant]
  dsimp only
  rw [BuildM.run_bind, BuildM.run_get]
  dsimp only
  rw [h]
  rfl

variable (hparameter : Context.parameterIndex? s.params key = none)
include hparameter

theorem run_buildStep_symbol {symbol : Symbol} (h : t.context.symbol? key = some symbol) :
    (t.buildStep build key).run s = if symbol.text = key then (.error (.unresolved key), s)
      else (if symbol.isCall then t.buildCall build symbol.text else build symbol.text).run s := by
  rw [buildStep, hconstant]
  dsimp only
  rw [BuildM.run_bind, BuildM.run_get]
  dsimp only
  rw [hparameter]
  dsimp only
  rw [h]
  dsimp only
  split
  · rfl
  · rfl

theorem run_buildStep_text (h : t.context.symbol? key = none) :
    (t.buildStep build key).run s = (remember key (t.buildComposite build key)).run s := by
  rw [buildStep, hconstant]
  dsimp only
  rw [BuildM.run_bind, BuildM.run_get]
  dsimp only
  rw [hparameter]
  dsimp only
  rw [h]

end Keys

end TreeBuilder

/-! ### What building keeps -/

/-- Building keeps an invariant, and its result, if there is one, satisfies `Q`. -/
def Keeps {α : Type} (I : BuildState → Prop) (m : BuildM α) (Q : α → Prop) : Prop :=
  ∀ s, I s → I (m.run s).2 ∧ ∀ a, (m.run s).1 = .ok a → Q a

section Keeps

variable {α β : Type} {I : BuildState → Prop} {Q : α → Prop} {R : β → Prop}

theorem keeps_pure {a : α} (h : Q a) : Keeps I (pure a) Q := by
  intro s hs
  refine ⟨hs, fun b hb => ?_⟩
  obtain rfl := Except.ok.inj hb
  exact h

theorem keeps_throw (fault : CompileFault) : Keeps I (throw fault : BuildM α) Q := by
  intro s hs
  exact ⟨hs, fun a ha => by simp at ha⟩

theorem keeps_bind {m : BuildM α} {f : α → BuildM β} (hm : Keeps I m Q)
    (hf : ∀ a, Q a → Keeps I (f a) R) : Keeps I (m >>= f) R := by
  intro s hs
  obtain ⟨hs', hQ⟩ := hm s hs
  rw [BuildM.run_bind]
  cases h : m.run s with
  | mk outcome s' =>
    rw [h] at hs' hQ
    cases outcome with
    | error fault => exact ⟨hs', fun b hb => by simp at hb⟩
    | ok a => exact hf a (hQ a rfl) s' hs'

theorem keeps_get : Keeps I get I := by
  intro s hs
  refine ⟨hs, fun a ha => ?_⟩
  obtain rfl := Except.ok.inj ha
  exact hs

theorem keeps_set {s' : BuildState} (h : I s') : Keeps I (set s') fun _ => True :=
  fun _ _ => ⟨h, fun _ _ => trivial⟩

theorem keeps_modify {f : BuildState → BuildState} (h : ∀ s, I s → I (f s)) :
    Keeps I (modify f) fun _ => True :=
  fun s hs => ⟨h s hs, fun _ _ => trivial⟩

theorem keeps_observe {m : BuildM α} (hm : Keeps I m Q) :
    Keeps I (BuildM.observe m) fun outcome => ∀ a, outcome = .ok a → Q a := by
  intro s hs
  obtain ⟨hs', hQ⟩ := hm s hs
  refine ⟨hs', fun outcome houtcome => ?_⟩
  rw [BuildM.run_observe] at houtcome
  obtain rfl := Except.ok.inj houtcome
  exact hQ

theorem keeps_mapM {γ : Type} {f : γ → BuildM α} {P : γ → α → Prop} {l : List γ}
    (h : ∀ c ∈ l, Keeps I (f c) (P c)) : Keeps I (l.mapM f) (List.Forall₂ P l) := by
  induction l with
  | nil =>
    rw [List.mapM_nil]
    exact keeps_pure .nil
  | cons c l ih =>
    rw [List.mapM_cons]
    refine keeps_bind (h c (List.mem_cons_self ..)) fun a ha => ?_
    refine keeps_bind (ih fun d hd => h d (List.mem_cons_of_mem _ hd)) fun results hresults => ?_
    exact keeps_pure (.cons ha hresults)

end Keeps

/-! ### Derivations -/

namespace TreeBuilder

/-- The operands in the text between the parentheses of a call. -/
def callArguments (t : TreeBuilder) (inner : Text) : List Text :=
  if inner = [] then [] else Text.splitAll t.tokens.separator inner

/-- The tree is assembled from a head and operands, whatever types the parameters have. -/
def Assembles (t : TreeBuilder) (head : Head) (operands : List Node) (node : Node) : Prop :=
  ∃ params params', params.map Parameter.name = t.context.params.map Parameter.name ∧
    Node.assemble head operands params = (.ok node, params')

theorem Assembles.restricts {t : TreeBuilder} {head : Head} {operands : List Node} {node : Node}
    (h : t.Assembles head operands node) : Restricts (Node.undetermined head operands) node := by
  obtain ⟨params, params', -, hnode⟩ := h
  exact Node.restricts_assemble hnode

/-- The trees that a text, or what a name stands for, can be built to. A text may be split in every
way that it offers; what types the parameters have does not matter. -/
inductive Derives (t : TreeBuilder) : Text → Node → Prop
  | constant {key : Text} {c : Constant} (hkey : t.context.constant? key = some c) :
      Derives t key (.constant c.value (String.ofList c.text))
  | parameter {key : Text} {id : Nat}
      (hkey : Context.parameterIndex? t.context.params key = some id) :
      Derives t key (.parameter id)
  | symbol {key : Text} {symbol : Symbol} {node : Node}
      (hkey : t.context.symbol? key = some symbol) (hplain : symbol.isCall = false)
      (h : Derives t symbol.text node) : Derives t key node
  | call {key text name inner : Text} {f : Function} {operands : List Node} {node : Node}
      (hkey : text = key ∨
        ∃ symbol, t.context.symbol? key = some symbol ∧ symbol.isCall = true ∧ symbol.text = text)
      (hcall : t.splitCall? text = some (name, inner))
      (hlookup : Function.lookup? (String.ofList name) (t.callArguments inner).length = some f)
      (hlen : (t.callArguments inner).length = operands.length)
      (hoperands : ∀ p ∈ (t.callArguments inner).zip operands, Derives t p.1 p.2)
      (hnode : t.Assembles (.call f) operands node) :
      Derives t key (node.fold t.registry (t.plain text))
  | binary {text : Text} {split : Split} {left right node : Node}
      (hsplit : split ∈ t.candidates text) (hleft : Derives t (text.take split.place) left)
      (hright : Derives t (text.drop (split.place + split.width)) right)
      (hnode : t.Assembles (.binary split.op) [left, right] node) :
      Derives t text (node.fold t.registry (t.plain text))
  | unary {text rest token : Text} {op : UnaryOp} {operand node : Node}
      (hop : (op, token) ∈ t.unary) (htoken : Text.after? token text = some rest) (hrest : rest ≠ [])
      (hoperand : Derives t rest operand)
      (hnode : t.Assembles (.unary op) [operand] node) :
      Derives t text (node.fold t.registry (t.plain text))

theorem names_withMasks {s : BuildState} {masks : List TypeMask}
    (hlen : masks.length = s.params.length) :
    (s.withMasks masks).params.map Parameter.name = s.params.map Parameter.name := by
  refine List.ext_getElem (by simp [BuildState.withMasks, hlen]) fun i hi hi' => ?_
  simp [BuildState.withMasks]

/-- The parameters have the names of those in the tables, and what is remembered is derived. -/
structure Tracks (t : TreeBuilder) (s : BuildState) : Prop where
  names : s.params.map Parameter.name = t.context.params.map Parameter.name
  built : ∀ (key : BuildKey) node masks, s.built[key]? = some (.ok (node, masks)) →
    t.Derives key.text node ∧ masks.length = t.context.params.length

namespace Tracks

variable {t : TreeBuilder} {s : BuildState}

theorem withParams (h : t.Tracks s) {params : List Parameter}
    (hnames : params.map Parameter.name = s.params.map Parameter.name) :
    t.Tracks { s with params } :=
  ⟨hnames.trans h.names, h.built⟩

theorem length_params (h : t.Tracks s) : s.params.length = t.context.params.length := by
  simpa using congrArg List.length h.names

theorem withMasks (h : t.Tracks s) {masks : List TypeMask}
    (hlen : masks.length = t.context.params.length) : t.Tracks (s.withMasks masks) :=
  ⟨(names_withMasks (hlen.trans h.length_params.symm)).trans h.names, h.built⟩

theorem remember (h : t.Tracks s) (key : BuildKey) {outcome : Except CompileFault Node}
    (hnode : ∀ node, outcome = .ok node → t.Derives key.text node) :
    t.Tracks { s with built := s.built.insert key (outcome.map fun node => (node, s.masks)) } := by
  refine ⟨h.names, fun key' node masks hfound => ?_⟩
  simp only [Std.HashMap.getElem?_insert] at hfound
  split at hfound
  · next heq =>
    obtain rfl := eq_of_beq heq
    cases outcome with
    | error fault => simp [Except.map] at hfound
    | ok n =>
      simp only [Except.map, Option.some.injEq, Except.ok.injEq, Prod.mk.injEq] at hfound
      obtain ⟨rfl, rfl⟩ := hfound
      exact ⟨hnode n rfl, by simpa [BuildState.masks] using h.length_params⟩
  · exact h.built key' node masks hfound

end Tracks

/-! ### The steps of building -/

theorem keeps_spendSplit (t : TreeBuilder) : Keeps t.Tracks spendSplit fun _ => True := by
  refine keeps_bind (keeps_modify fun s hs => ⟨hs.names, hs.built⟩) fun _ _ => ?_
  refine keeps_bind keeps_get fun s _ => ?_
  split
  · exact keeps_throw _
  · exact keeps_pure trivial

theorem keeps_assemble (t : TreeBuilder) (head : Head) (operands : List Node) :
    Keeps t.Tracks (assemble head operands) (t.Assembles head operands) := by
  refine keeps_bind keeps_get fun s hs => ?_
  have hnames := (Node.narrows_assemble head operands s.params).1
  have hnode (node : Node) (hnode : (Node.assemble head operands s.params).1 = .ok node) :
      t.Assembles head operands node :=
    ⟨s.params, _, hs.names, Prod.ext hnode rfl⟩
  generalize Node.assemble head operands s.params = result at hnames hnode ⊢
  obtain ⟨outcome, params⟩ := result
  refine keeps_bind (keeps_set (hs.withParams hnames)) fun _ _ => ?_
  cases outcome with
  | ok node => exact keeps_pure (hnode node rfl)
  | error fault => exact keeps_throw _

/-- An attempt that succeeds gives the folded tree of its way. -/
theorem keeps_attempt (t : TreeBuilder) (text : Text) {way : BuildM Node} {Q : Node → Prop}
    (h : Keeps t.Tracks way fun node => Q (node.fold t.registry (t.plain text))) :
    Keeps t.Tracks (t.attempt text way) fun found => ∀ n ∈ found, Q n := by
  refine keeps_bind t.keeps_spendSplit fun _ _ => keeps_bind keeps_get fun s hs => ?_
  refine keeps_bind (keeps_observe h) fun outcome houtcome => ?_
  split
  · next node =>
    refine keeps_pure fun n hn => ?_
    obtain rfl := Option.some.inj hn
    exact houtcome node rfl
  · exact keeps_throw _
  · refine keeps_bind (keeps_modify fun s' hs' =>
      hs'.withParams (hs.names.trans hs'.names.symm)) fun _ _ => ?_
    exact keeps_pure (by simp)

theorem keeps_firstSuccess (t : TreeBuilder) (text : Text) {ways : List (BuildM Node)}
    {Q : Node → Prop}
    (h : ∀ way ∈ ways, Keeps t.Tracks way fun node => Q (node.fold t.registry (t.plain text))) :
    Keeps t.Tracks (t.firstSuccess text ways) fun found => ∀ n ∈ found, Q n := by
  induction ways with
  | nil => exact keeps_pure (by simp)
  | cons way ways ih =>
    rw [firstSuccess]
    refine keeps_bind (t.keeps_attempt text (h way (List.mem_cons_self ..))) fun found hfound => ?_
    cases found with
    | some node => exact keeps_pure hfound
    | none => exact ih fun w hw => h w (List.mem_cons_of_mem _ hw)

section Parts

variable {t : TreeBuilder} {build : Text → BuildM Node}
  (hbuild : ∀ text, Keeps t.Tracks (build text) (t.Derives text))
include hbuild

theorem keeps_binaryWays (text : Text) : ∀ way ∈ t.binaryWays build text,
    Keeps t.Tracks way fun node => t.Derives text (node.fold t.registry (t.plain text)) := by
  intro way hway
  obtain ⟨split, hsplit, rfl⟩ := List.mem_map.mp hway
  refine keeps_bind (hbuild _) fun left hleft => keeps_bind (hbuild _) fun right hright => ?_
  intro s hs
  obtain ⟨hkept, hnode⟩ := t.keeps_assemble (.binary split.op) [left, right] s hs
  exact ⟨hkept, fun node heq => .binary hsplit hleft hright (hnode node heq)⟩

theorem keeps_unaryWays (text : Text) : ∀ way ∈ t.unaryWays build text,
    Keeps t.Tracks way fun node => t.Derives text (node.fold t.registry (t.plain text)) := by
  intro way hway
  obtain ⟨⟨op, token⟩, hop, hway⟩ := List.mem_filterMap.mp hway
  dsimp only at hway
  split at hway
  · simp at hway
  · simp at hway
  · next rest hrest htoken =>
    obtain rfl := Option.some.inj hway
    refine keeps_bind (hbuild _) fun operand hoperand => ?_
    intro s hs
    obtain ⟨hkept, hnode⟩ := t.keeps_assemble (.unary op) [operand] s hs
    exact ⟨hkept, fun node heq => .unary hop htoken hrest hoperand (hnode node heq)⟩

theorem keeps_buildCall {key : Text} (text : Text)
    (hkey : text = key ∨
      ∃ symbol, t.context.symbol? key = some symbol ∧ symbol.isCall = true ∧ symbol.text = text) :
    Keeps t.Tracks (t.buildCall build text) (t.Derives key) := by
  rw [buildCall]
  split
  · exact keeps_throw _
  · next name inner hcall =>
    dsimp only
    split
    · exact keeps_throw _
    · next f hlookup =>
      refine keeps_bind (keeps_mapM fun arg _ => hbuild arg) fun operands hoperands => ?_
      refine keeps_bind (t.keeps_assemble (.call f) operands) fun node hnode => ?_
      obtain ⟨hlen, hzip⟩ := List.forall₂_iff_zip.mp hoperands
      exact keeps_pure (.call hkey hcall hlookup hlen (fun p hp => hzip hp) hnode)

theorem keeps_buildComposite (text : Text) :
    Keeps t.Tracks (t.buildComposite build text) (t.Derives text) := by
  rw [buildComposite]
  split
  · exact keeps_buildCall hbuild text (.inl rfl)
  · refine keeps_bind (t.keeps_firstSuccess text (keeps_binaryWays hbuild text))
      fun found hfound => ?_
    cases found with
    | some node => exact keeps_pure (hfound node rfl)
    | none =>
      refine keeps_bind (t.keeps_firstSuccess text (keeps_unaryWays hbuild text))
        fun found hfound => ?_
      cases found with
      | some node => exact keeps_pure (hfound node rfl)
      | none => exact keeps_throw _

end Parts

/-- What is remembered is derived, so what is remembered later is too. -/
theorem keeps_remember {t : TreeBuilder} (text : Text) {build : BuildM Node}
    (h : Keeps t.Tracks build (t.Derives text)) :
    Keeps t.Tracks (remember text build) (t.Derives text) := by
  refine keeps_bind keeps_get fun s hs => ?_
  dsimp only
  split
  · exact keeps_throw _
  · next node masks hfound =>
    obtain ⟨hnode, hlen⟩ := hs.built _ node masks hfound
    exact keeps_bind (keeps_set (hs.withMasks hlen)) fun _ _ => keeps_pure hnode
  · refine keeps_bind (keeps_observe h) fun outcome houtcome => ?_
    refine keeps_bind (keeps_modify fun s' hs' => hs'.remember _ houtcome) fun _ _ => ?_
    cases outcome with
    | ok node => exact keeps_pure (houtcome node rfl)
    | error fault => exact keeps_throw _

/-- The place of a parameter is a matter of the names. -/
theorem parameterIndex?_congr {params params' : List Parameter}
    (h : params.map Parameter.name = params'.map Parameter.name) (key : Text) :
    Context.parameterIndex? params key = Context.parameterIndex? params' key := by
  have hnames (params : List Parameter) : Context.parameterIndex? params key =
      (params.map Parameter.name).findIdx? fun name => name.toList == key := by
    rw [List.findIdx?_map]
    rfl
  rw [hnames, hnames, h]

theorem keeps_buildStep (t : TreeBuilder) {build : Text → BuildM Node}
    (hbuild : ∀ text, Keeps t.Tracks (build text) (t.Derives text)) (key : Text) :
    Keeps t.Tracks (t.buildStep build key) (t.Derives key) := by
  rw [buildStep]
  split
  · next c hc => exact keeps_pure (.constant hc)
  · refine keeps_bind keeps_get fun s hs => ?_
    split
    · next id hid => exact keeps_pure (.parameter (parameterIndex?_congr hs.names key ▸ hid))
    · split
      · next symbol hsymbol =>
        split
        · exact keeps_throw _
        · split
          · next hcall => exact keeps_buildCall hbuild _ (.inr ⟨symbol, hsymbol, hcall, rfl⟩)
          · next hplain =>
            intro s hs
            obtain ⟨hkept, hnode⟩ := hbuild symbol.text s hs
            exact ⟨hkept, fun node heq =>
              .symbol hsymbol (Bool.eq_false_of_not_eq_true hplain) (hnode node heq)⟩
      · exact keeps_remember key (keeps_buildComposite hbuild key)

/-- What is built is derived, and building keeps the invariant. -/
theorem derives_build (t : TreeBuilder) (key : Text) :
    Keeps t.Tracks (t.build key) (t.Derives key) := by
  have hwithin (depth : Nat) (key : Text) : Keeps t.Tracks (t.buildWithin depth key) (t.Derives key) := by
    induction depth generalizing key with
    | zero => exact keeps_throw _
    | succ depth ih => exact t.keeps_buildStep ih key
  exact hwithin _ key

/-- What is derived is well formed. -/
theorem Derives.wellFormed {t : TreeBuilder} {key : Text} {node : Node} (h : t.Derives key node) :
    node.WellFormed t.context.params.length := by
  have hassembled {head : Head} {operands : List Node} {node : Node}
      (hnode : t.Assembles head operands node)
      (hcount : head.takes operands.length)
      (hoperands : ∀ n ∈ operands, n.WellFormed t.context.params.length) (text : Text) :
      (node.fold t.registry (t.plain text)).WellFormed t.context.params.length :=
    (hnode.restricts.wellFormed (Node.wellFormed_undetermined hcount hoperands)).fold ..
  induction h with
  | constant hkey => exact Node.wellFormed_constant ..
  | parameter hkey =>
    obtain ⟨hlt, -⟩ := List.findIdx?_eq_some_iff_getElem.mp hkey
    exact ⟨.parameter _, .parameter hlt⟩
  | symbol _ _ _ ih => exact ih
  | call _ _ _ hlen _ hnode ih =>
    have hall : List.Forall₂ (fun _ (n : Node) => n.WellFormed t.context.params.length) _ _ :=
      List.forall₂_iff_zip.mpr ⟨hlen, fun {a b} hp => ih (a, b) hp⟩
    refine hassembled hnode trivial (fun n hn => ?_) _
    obtain ⟨i, hi, rfl⟩ := List.getElem_of_mem hn
    exact hall.get (by omega) hi
  | binary _ _ _ hnode ihleft ihright =>
    exact hassembled hnode rfl (by simpa using ⟨ihleft, ihright⟩) _
  | unary _ _ _ _ hnode ih => exact hassembled hnode rfl (by simpa using ih) _

end TreeBuilder

/-- The tree of a compilation is derived from the main symbol, with its tables filled for parameters
that are named as those of the compilation. -/
theorem Compiler.derives_of_buildTree {c : Compiler} {ctx : Context} {root : Node}
    {params : List Parameter} (h : c.buildTree ctx = .ok (root, params)) :
    params.map Parameter.name = ctx.params.map Parameter.name ∧ ∃ node,
      (TreeBuilder.ofDefinition c.definition c.tokens c.registry ctx).Derives Context.mainName node ∧
        root = node.retable params ∧ node.Typable params := by
  have hderives := TreeBuilder.derives_build
    (TreeBuilder.ofDefinition c.definition c.tokens c.registry ctx) Context.mainName
      { params := ctx.params } ⟨rfl, by simp⟩
  unfold buildTree at h
  cases hcheck : check ctx with
  | error fault =>
    rw [hcheck] at h
    cases h
  | ok =>
  rw [hcheck] at h
  dsimp only [ok_bind] at h
  split at h
  · cases h
  · next node s hrun =>
    rw [hrun] at hderives
    split at h
    · next hrefresh =>
      obtain ⟨rfl, rfl⟩ := Prod.mk.inj (Except.ok.inj h)
      obtain ⟨htypable, hroot⟩ := Node.refresh_eq_iff.mp hrefresh
      exact ⟨hderives.1.names, node, hderives.2 node rfl, hroot, htypable⟩
    · cases h

/-- A compilation that succeeds has got to its tables. -/
theorem Compiler.exists_buildTree_of_compile {c : Compiler} {source : Text} {cancelled : Bool}
    {root : Node} {params : List Parameter}
    (h : (c.compile source cancelled).outcome = .ok (root, params)) :
    ∃ ctx, c.buildTree ctx = .ok (root, params) := by
  rw [compile] at h
  dsimp only at h
  split at h
  · simp at h
  · split at h
    · simp at h
    · split at h
      · simp at h
      · exact ⟨_, h⟩

end Formula
