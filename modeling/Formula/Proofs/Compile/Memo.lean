import Formula.Proofs.Compile.Backtracking

/-!
# Remembering texts changes nothing

A text is built once for each state of the parameters, and its outcome is remembered with the
types it left the parameters with. A failure is remembered without types, although the attempt may
have narrowed some of them half-way. This module compares building with the same recursion that
remembers nothing.

Both run side by side (`Mirrors`). They agree on the outcome, and after a success on the
parameters; after a failure the parameters may differ, and nothing is said of them. That is enough:
a failed part is either undone by the attempt around it, to the parameters both had before, or it
is the outcome of the whole. What is remembered is right (`TreeBuilder.Remembers`) for every state
with the same parameters and whatever the nesting that is left, so the number of splits and the
depth may differ between the two. The runs can only part where one of them gives up as too complex.

## Main definitions

* `TreeBuilder.forgetfulWithin`: building without remembering.
* `TreeBuilder.Visited`: the states that builds of one compilation leave behind.
* `TreeBuilder.Remembers`: what is remembered is what the forgetful builder gives.
* `TreeBuilder.Mirrors`: the two run side by side.

## Main results

* `TreeBuilder.mirrors_attempt`, `TreeBuilder.mirrors_remember`: the steps that undo and recall.
* `TreeBuilder.build_eq_forgetful`: the outcomes and the parameters agree.
-/

namespace Formula

namespace TreeBuilder

/-! ### Building without remembering -/

/-- Builds what a name stands for, or a text, and remembers nothing. -/
def forgetfulStep (t : TreeBuilder) (build : Text → BuildM Node) (key : Text) : BuildM Node := do
  match t.context.constant? key with
  | some constant => return .constant constant.value (String.ofList constant.text)
  | none =>
    match Context.parameterIndex? (← get).params key with
    | some id => return .parameter id
    | none =>
      match t.context.symbol? key with
      | some symbol =>
        if symbol.text = key then throw (.unresolved key)
        else if symbol.isCall then t.buildCall build symbol.text
        else build symbol.text
      | none => t.buildComposite build key

/-- Builds without remembering; the first argument bounds the nesting. -/
def forgetfulWithin (t : TreeBuilder) : Nat → Text → BuildM Node
  | 0, _ => throw .tooComplex
  | depth + 1, key => t.forgetfulStep (t.forgetfulWithin depth) key

/-- The states that builds of one compilation can leave behind: they start with nothing remembered,
and between two builds the types of the parameters and the number of splits may change. -/
inductive Visited (t : TreeBuilder) : BuildState → Prop
  | start : Visited t { params := t.context.params }
  | build {s : BuildState} (h : Visited t s) (depth : Nat) (key : Text) :
      Visited t ((t.buildWithin depth key).run s).2
  | retype {s : BuildState} (h : Visited t s) {params : List Parameter}
      (hnames : params.map Parameter.name = s.params.map Parameter.name) (splits : Nat) :
      Visited t { s with params, splits }

/-! ### Running side by side -/

/-- Unless one of two runs has given up, they have the same outcome, and if it is a success the same
parameters. -/
def Agree {α : Type} (r q : Except CompileFault α × BuildState) : Prop :=
  r.1 = .error .tooComplex ∨ q.1 = .error .tooComplex ∨
    r.1 = q.1 ∧ ∀ a, r.1 = .ok a → r.2.params = q.2.params

/-- What comes of an outcome that is remembered. -/
def replay (entry : Except CompileFault (Node × List TypeMask)) (s : BuildState) :
    Except CompileFault Node × BuildState :=
  match entry with
  | .error fault => (.error fault, s)
  | .ok (node, masks) => (.ok node, s.withMasks masks)

/-- Recalling an outcome agrees with the forgetful builder, from every state with the remembered
parameters and whatever the nesting that is left. -/
def Recalls (t : TreeBuilder) (key : BuildKey) (entry : Except CompileFault (Node × List TypeMask)) :
    Prop :=
  ∀ s q : BuildState, s.params.map Parameter.name = t.context.params.map Parameter.name →
    s.masks = key.masks → q.params = s.params → ∀ depth,
      Agree (replay entry s) ((t.buildComposite (t.forgetfulWithin depth) key.text).run q)

/-- The parameters are those of the tables, and what is remembered is right. -/
structure Remembers (t : TreeBuilder) (s : BuildState) : Prop where
  names : s.params.map Parameter.name = t.context.params.map Parameter.name
  built : ∀ (key : BuildKey) entry, s.built[key]? = some entry → t.Recalls key entry ∧
    ∀ node masks, entry = .ok (node, masks) → masks.length = t.context.params.length

/-- Building keeps what is remembered right, and agrees with each of a family of builders that run
from the same parameters. -/
def Mirrors {α : Type} (t : TreeBuilder) (m : BuildM α) (plain : Nat → BuildM α) : Prop :=
  ∀ s, t.Remembers s → t.Remembers (m.run s).2 ∧
    ∀ (depth : Nat) (q : BuildState), q.params = s.params → Agree (m.run s) ((plain depth).run q)

section Rules

variable {t : TreeBuilder} {α β : Type}

theorem mirrors_pure (a : α) : t.Mirrors (pure a) fun _ => pure a :=
  fun _ hs => ⟨hs, fun _ _ hq => .inr (.inr ⟨rfl, fun _ _ => hq.symm⟩)⟩

theorem mirrors_throw (fault : CompileFault) :
    t.Mirrors (throw fault : BuildM α) fun _ => throw fault :=
  fun _ hs => ⟨hs, fun _ _ hq => .inr (.inr ⟨rfl, fun _ _ => hq.symm⟩)⟩

theorem mirrors_bind {m : BuildM α} {plain : Nat → BuildM α} {f : α → BuildM β}
    {g : Nat → α → BuildM β} (hm : t.Mirrors m plain)
    (hf : ∀ a, t.Mirrors (f a) fun depth => g depth a) :
    t.Mirrors (m >>= f) fun depth => plain depth >>= g depth := by
  intro s hs
  obtain ⟨hkept, hagree⟩ := hm s hs
  simp only [BuildM.run_bind]
  cases hrun : m.run s with
  | mk outcome s' =>
  rw [hrun] at hkept hagree
  cases outcome with
  | error fault =>
    refine ⟨hkept, fun depth q hq => ?_⟩
    have h := hagree depth q hq
    cases hplain : (plain depth).run q with
    | mk outcome' q' =>
    rw [hplain] at h
    rcases h with hleft | hright | ⟨hsame, -⟩
    · exact .inl (by simpa using hleft)
    · obtain rfl := hright
      exact .inr (.inl rfl)
    · obtain rfl := hsame
      exact .inr (.inr ⟨rfl, fun a ha => by simp at ha⟩)
  | ok a =>
    obtain ⟨hkept', hagree'⟩ := hf a s' hkept
    refine ⟨hkept', fun depth q hq => ?_⟩
    have h := hagree depth q hq
    cases hplain : (plain depth).run q with
    | mk outcome' q' =>
    rw [hplain] at h
    rcases h with hleft | hright | ⟨hsame, hparams⟩
    · simp at hleft
    · obtain rfl := hright
      exact .inr (.inl rfl)
    · obtain rfl := hsame
      exact hagree' depth q' (hparams a rfl).symm

/-- A step that reads nothing but the parameters of the state. -/
theorem mirrors_get {f : BuildState → BuildM β} {g : Nat → BuildState → BuildM β}
    (h : ∀ s q : BuildState, q.params = s.params → t.Mirrors (f s) fun depth => g depth q) :
    t.Mirrors (get >>= f) fun depth => get >>= g depth :=
  fun s hs => ⟨(h s s rfl s hs).1, fun depth q hq => (h s q hq s hs).2 depth q hq⟩

theorem mirrors_mapM {γ : Type} {f : γ → BuildM α} {g : Nat → γ → BuildM α} {l : List γ}
    (h : ∀ c ∈ l, t.Mirrors (f c) fun depth => g depth c) :
    t.Mirrors (l.mapM f) fun depth => l.mapM (g depth) := by
  induction l with
  | nil =>
    simp only [List.mapM_nil]
    exact mirrors_pure []
  | cons c l ih =>
    simp only [List.mapM_cons]
    refine mirrors_bind (h c (List.mem_cons_self ..)) fun a => ?_
    refine mirrors_bind (ih fun d hd => h d (List.mem_cons_of_mem _ hd)) fun results => ?_
    exact mirrors_pure _

end Rules

/-! ### States with the same parameters -/

theorem Remembers.withParams {t : TreeBuilder} {s : BuildState} (h : t.Remembers s)
    {params : List Parameter}
    (hnames : params.map Parameter.name = t.context.params.map Parameter.name) (splits : Nat) :
    t.Remembers { s with params, splits } :=
  ⟨hnames, h.built⟩

/-- Parameters are known by their names and types. -/
theorem withMasks_params_eq {s s' : BuildState}
    (hnames : s'.params.map Parameter.name = s.params.map Parameter.name) :
    (s.withMasks s'.masks).params = s'.params := by
  have hlen : s'.params.length = s.params.length := by simpa using congrArg List.length hnames
  refine List.ext_getElem (by simp [BuildState.withMasks, BuildState.masks, hlen])
    fun i hi hi' => ?_
  have hi'' : i < s.params.length := hlen ▸ hi'
  have hname : s'.params[i].name = s.params[i].name := by
    have := congrArg (fun l => l[i]?) hnames
    simpa [hi', hi''] using this
  simp only [BuildState.withMasks, BuildState.masks, List.getElem_zipWith, List.getElem_map]
  rw [← hname]

theorem params_eq_of_masks_eq {s s' : BuildState}
    (hnames : s'.params.map Parameter.name = s.params.map Parameter.name)
    (hmasks : s'.masks = s.masks) : s'.params = s.params := by
  rw [← withMasks_params_eq hnames, hmasks, withMasks_params_eq rfl]

/-! ### The steps of building -/

section Steps

variable {t : TreeBuilder}

theorem run_assemble (head : Head) (operands : List Node) (s : BuildState) :
    (assemble head operands).run s = ((Node.assemble head operands s.params).1.mapError .illTyped,
      { s with params := (Node.assemble head operands s.params).2 }) := by
  rw [assemble, BuildM.run_bind, BuildM.run_get]
  dsimp only
  rcases Node.assemble head operands s.params with ⟨fault | node, params⟩ <;> rfl

theorem mirrors_assemble (head : Head) (operands : List Node) :
    t.Mirrors (assemble head operands) fun _ => assemble head operands := by
  intro s hs
  simp only [run_assemble]
  refine ⟨hs.withParams ((Node.narrows_assemble head operands s.params).1.trans hs.names) _,
    fun depth q hq => .inr (.inr ⟨by rw [hq], fun _ _ => by rw [hq]⟩)⟩

theorem run_attempt_exhausted {text : Text} {way : BuildM Node} {s : BuildState}
    (h : maxSplits < s.splits + 1) : (t.attempt text way).run s = (.error .tooComplex, spent s) := by
  rw [run_attempt, if_pos h]

theorem run_attempt_ok {text : Text} {way : BuildM Node} {s s' : BuildState} {node : Node}
    (h : ¬maxSplits < s.splits + 1) (hrun : way.run (spent s) = (.ok node, s')) :
    (t.attempt text way).run s = (.ok (some (node.fold t.registry (t.plain text))), s') := by
  rw [run_attempt, if_neg h, hrun]

theorem run_attempt_tooComplex {text : Text} {way : BuildM Node} {s s' : BuildState}
    (h : ¬maxSplits < s.splits + 1) (hrun : way.run (spent s) = (.error .tooComplex, s')) :
    (t.attempt text way).run s = (.error .tooComplex, s') := by
  rw [run_attempt, if_neg h, hrun]

theorem run_attempt_error {text : Text} {way : BuildM Node} {s s' : BuildState}
    {fault : CompileFault} (h : ¬maxSplits < s.splits + 1) (hfault : fault ≠ .tooComplex)
    (hrun : way.run (spent s) = (.error fault, s')) :
    (t.attempt text way).run s = (.ok none, { s' with params := s.params }) := by
  rw [run_attempt, if_neg h, hrun]
  cases fault <;> first | rfl | exact absurd rfl hfault

/-- A failed attempt is undone to the parameters that both had before it. -/
theorem mirrors_attempt (text : Text) {way : BuildM Node} {plain : Nat → BuildM Node}
    (h : t.Mirrors way plain) :
    t.Mirrors (t.attempt text way) fun depth => t.attempt text (plain depth) := by
  intro s hs
  have hspent : t.Remembers (spent s) := ⟨hs.names, hs.built⟩
  obtain ⟨hkept, hagree⟩ := h (spent s) hspent
  by_cases hlimit : maxSplits < s.splits + 1
  · rw [run_attempt_exhausted hlimit]
    exact ⟨hspent, fun _ _ _ => .inl rfl⟩
  cases hrun : way.run (spent s) with
  | mk outcome s' =>
  rw [hrun] at hkept hagree
  have hagree (depth : Nat) (q : BuildState) (hq : q.params = s.params) :
      Agree (outcome, s') ((plain depth).run (spent q)) := hagree depth (spent q) hq
  cases outcome with
  | ok node =>
    rw [run_attempt_ok hlimit hrun]
    refine ⟨hkept, fun depth q hq => ?_⟩
    by_cases hlimit' : maxSplits < q.splits + 1
    · exact .inr (.inl (by rw [run_attempt_exhausted hlimit']))
    rcases hagree depth q hq with hleft | hright | ⟨hsame, hparams⟩
    · simp at hleft
    · exact .inr (.inl (by rw [run_attempt_tooComplex hlimit' (Prod.ext hright rfl)]))
    · have hplain : (plain depth).run (spent q) = (.ok node, ((plain depth).run (spent q)).2) :=
        Prod.ext hsame.symm rfl
      rw [run_attempt_ok hlimit' hplain]
      exact .inr (.inr ⟨rfl, fun _ _ => hparams node rfl⟩)
  | error fault =>
    by_cases hfault : fault = .tooComplex
    · subst hfault
      rw [run_attempt_tooComplex hlimit hrun]
      exact ⟨hkept, fun _ _ _ => .inl rfl⟩
    rw [run_attempt_error hlimit hfault hrun]
    refine ⟨hkept.withParams hs.names _, fun depth q hq => ?_⟩
    by_cases hlimit' : maxSplits < q.splits + 1
    · exact .inr (.inl (by rw [run_attempt_exhausted hlimit']))
    rcases hagree depth q hq with hleft | hright | ⟨hsame, -⟩
    · exact absurd (by simpa using hleft) hfault
    · exact .inr (.inl (by rw [run_attempt_tooComplex hlimit' (Prod.ext hright rfl)]))
    · have hplain : (plain depth).run (spent q) =
          (.error fault, ((plain depth).run (spent q)).2) := Prod.ext hsame.symm rfl
      rw [run_attempt_error hlimit' hfault hplain]
      exact .inr (.inr ⟨rfl, fun _ _ => hq.symm⟩)

theorem mirrors_firstSuccess {γ : Type} (text : Text) {l : List γ} {f : γ → BuildM Node}
    {g : Nat → γ → BuildM Node} (h : ∀ c, t.Mirrors (f c) fun depth => g depth c) :
    t.Mirrors (t.firstSuccess text (l.map f)) fun depth => t.firstSuccess text (l.map (g depth)) := by
  induction l with
  | nil => exact mirrors_pure none
  | cons c l ih =>
    simp only [List.map_cons, firstSuccess]
    refine mirrors_bind (mirrors_attempt text (h c)) fun found => ?_
    cases found with
    | some node => exact mirrors_pure _
    | none => exact ih

/-- The unary operators that a text starts with, with what follows them. -/
def leading (t : TreeBuilder) (text : Text) : List (UnaryOp × Text) :=
  t.unary.filterMap fun (op, token) =>
    match Text.after? token text with
    | none | some [] => none
    | some rest => some (op, rest)

theorem unaryWays_eq_map (build : Text → BuildM Node) (text : Text) :
    t.unaryWays build text =
      (t.leading text).map fun p => build p.2 >>= fun operand => assemble (.unary p.1) [operand] := by
  rw [unaryWays, leading, List.map_filterMap]
  refine List.filterMap_congr fun p _ => ?_
  dsimp only
  cases Text.after? p.2 text with
  | none => rfl
  | some rest => cases rest <;> rfl

section Parts

variable {build : Text → BuildM Node} {plain : Nat → Text → BuildM Node}
  (h : ∀ text, t.Mirrors (build text) fun depth => plain depth text)
include h

theorem mirrors_buildCall (text : Text) :
    t.Mirrors (t.buildCall build text) fun depth => t.buildCall (plain depth) text := by
  simp only [buildCall]
  split
  · exact mirrors_throw _
  · split
    · exact mirrors_throw _
    · refine mirrors_bind (mirrors_mapM fun arg _ => h arg) fun operands => ?_
      exact mirrors_bind (mirrors_assemble _ operands) fun node => mirrors_pure _

theorem mirrors_buildComposite (text : Text) :
    t.Mirrors (t.buildComposite build text) fun depth => t.buildComposite (plain depth) text := by
  simp only [buildComposite]
  split
  · exact mirrors_buildCall h text
  · refine mirrors_bind (mirrors_firstSuccess text fun split => ?_) fun found => ?_
    · refine mirrors_bind (h _) fun left => mirrors_bind (h _) fun right => ?_
      exact mirrors_assemble _ [left, right]
    cases found with
    | some node => exact mirrors_pure node
    | none =>
      simp only [unaryWays_eq_map]
      refine mirrors_bind (mirrors_firstSuccess text fun p => ?_) fun found => ?_
      · exact mirrors_bind (h _) fun operand => mirrors_assemble _ [operand]
      cases found with
      | some node => exact mirrors_pure node
      | none => exact mirrors_throw _

end Parts

theorem run_remember (text : Text) (build : BuildM Node) (s : BuildState) :
    (remember text build).run s =
      match s.built[({ text, masks := s.masks } : BuildKey)]? with
      | some entry => replay entry s
      | none => ((build.run s).1, { (build.run s).2 with
          built := (build.run s).2.built.insert { text, masks := s.masks }
            ((build.run s).1.map fun node => (node, (build.run s).2.masks)) }) := by
  rw [remember, BuildM.run_bind, BuildM.run_get]
  dsimp only
  cases s.built[({ text, masks := s.masks } : BuildKey)]? with
  | some entry =>
    cases entry <;> rfl
  | none =>
    dsimp only
    rw [BuildM.run_bind, BuildM.run_observe]
    dsimp only
    rw [BuildM.run_bind, BuildM.run_modify]
    cases (build.run s).1 <;> rfl

/-- An outcome that agrees with the forgetful builder is right to be remembered. -/
theorem recalls_of_agree {text : Text} {s s' : BuildState} {outcome : Except CompileFault Node}
    (hs : s.params.map Parameter.name = t.context.params.map Parameter.name)
    (hs' : s'.params.map Parameter.name = t.context.params.map Parameter.name)
    (h : ∀ (depth : Nat) (q : BuildState), q.params = s.params →
      Agree (outcome, s') ((t.buildComposite (t.forgetfulWithin depth) text).run q)) :
    t.Recalls { text, masks := s.masks } (outcome.map fun node => (node, s'.masks)) := by
  intro s₁ q hnames hmasks hq depth
  have hparams : s₁.params = s.params := params_eq_of_masks_eq (hnames.trans hs.symm) hmasks
  have hagree := h depth q (hq.trans hparams)
  cases outcome with
  | error fault =>
    rcases hagree with hleft | hright | ⟨hsame, -⟩
    · exact .inl hleft
    · exact .inr (.inl hright)
    · exact .inr (.inr ⟨hsame, fun a ha => by simp [replay, Except.map] at ha⟩)
  | ok node =>
    rcases hagree with hleft | hright | ⟨hsame, hstate⟩
    · simp at hleft
    · exact .inr (.inl hright)
    · exact .inr (.inr ⟨hsame, fun _ _ =>
        (withMasks_params_eq (hs'.trans hnames.symm)).trans (hstate node rfl)⟩)

/-- What is recalled is what the forgetful builder gives; what is built anew is remembered right,
because it agrees with the forgetful builder at every depth. -/
theorem mirrors_remember {text : Text} {build : BuildM Node}
    (h : t.Mirrors build fun depth => t.buildComposite (t.forgetfulWithin depth) text) :
    t.Mirrors (remember text build) fun depth =>
      t.buildComposite (t.forgetfulWithin depth) text := by
  intro s hs
  rw [run_remember]
  split
  · next entry hfound =>
    obtain ⟨hrecalls, hlen⟩ := hs.built _ entry hfound
    refine ⟨?_, fun depth q hq => hrecalls s q hs.names rfl hq depth⟩
    cases entry with
    | error fault => exact hs
    | ok result =>
      have hlen : result.2.length = s.params.length := by
        rw [hlen result.1 result.2 rfl]
        simpa using (congrArg List.length hs.names).symm
      exact ⟨(names_withMasks hlen).trans hs.names, hs.built⟩
  · obtain ⟨hkept, hagree⟩ := h s hs
    refine ⟨⟨hkept.names, fun key entry hentry => ?_⟩, hagree⟩
    rw [Std.HashMap.getElem?_insert] at hentry
    split at hentry
    · next heq =>
      obtain rfl := eq_of_beq heq
      obtain rfl := Option.some.inj hentry
      refine ⟨recalls_of_agree hs.names hkept.names hagree, fun node masks hok => ?_⟩
      cases hout : (build.run s).1 with
      | error fault => simp [hout, Except.map] at hok
      | ok result =>
        simp only [hout, Except.map, Except.ok.injEq, Prod.mk.injEq] at hok
        rw [← hok.2, BuildState.masks, List.length_map]
        simpa using congrArg List.length hkept.names
    · exact hkept.built key entry hentry

theorem mirrors_buildStep {build : Text → BuildM Node}
    (h : ∀ text, t.Mirrors (build text) fun depth => t.forgetfulWithin depth text) (key : Text) :
    t.Mirrors (t.buildStep build key) fun depth => t.forgetfulStep (t.forgetfulWithin depth) key := by
  simp only [buildStep, forgetfulStep]
  cases t.context.constant? key with
  | some constant => exact mirrors_pure _
  | none =>
    refine mirrors_get fun s q hq => ?_
    rw [hq]
    cases Context.parameterIndex? s.params key with
    | some id => exact mirrors_pure _
    | none =>
      cases t.context.symbol? key with
      | none => exact mirrors_remember (mirrors_buildComposite h key)
      | some symbol =>
        by_cases hself : symbol.text = key
        · simp only [hself, if_true]
          exact mirrors_throw _
        by_cases hcall : symbol.isCall
        · simp only [hself, hcall, if_true, if_false]
          exact mirrors_buildCall h symbol.text
        · simp only [hself, hcall, if_false]
          exact h symbol.text

end Steps

/-- Builders for any two bounds on the nesting run side by side. -/
theorem mirrors_buildWithin (t : TreeBuilder) (depth : Nat) (key : Text) :
    t.Mirrors (t.buildWithin depth key) fun depth => t.forgetfulWithin depth key := by
  induction depth generalizing key with
  | zero => exact fun s hs => ⟨hs, fun _ _ _ => .inl rfl⟩
  | succ depth ih =>
    intro s hs
    obtain ⟨hkept, hagree⟩ := mirrors_buildStep ih key s hs
    refine ⟨hkept, fun depth' q hq => ?_⟩
    cases depth' with
    | zero => exact .inr (.inl rfl)
    | succ depth' => exact hagree depth' q hq

theorem Visited.remembers {t : TreeBuilder} {s : BuildState} (h : t.Visited s) :
    t.Remembers s := by
  induction h with
  | start => exact ⟨rfl, fun key entry hentry => by simp at hentry⟩
  | build _ depth key ih => exact (t.mirrors_buildWithin depth key _ ih).1
  | retype _ hnames splits ih => exact ih.withParams (hnames.trans ih.names) splits

/-- Remembering changes nothing. From every state that earlier builds can leave behind, building a
text with what is remembered has the same outcome as building it with the memory left out, and
leaves the same parameters if it succeeds, for any bounds on the nesting for which neither gives up
as too complex. -/
theorem build_eq_forgetful {t : TreeBuilder} {s : BuildState} (hs : t.Visited s) (key : Text)
    {depth depth' : Nat} (hbuild : ((t.buildWithin depth key).run s).1 ≠ .error .tooComplex)
    (hforgetful : ((t.forgetfulWithin depth' key).run s).1 ≠ .error .tooComplex) :
    ((t.buildWithin depth key).run s).1 = ((t.forgetfulWithin depth' key).run s).1 ∧
      ∀ node, ((t.buildWithin depth key).run s).1 = .ok node →
        ((t.buildWithin depth key).run s).2.params =
          ((t.forgetfulWithin depth' key).run s).2.params := by
  rcases (t.mirrors_buildWithin depth key s hs.remembers).2 depth' s rfl with
    hleft | hright | hagree
  · exact absurd hleft hbuild
  · exact absurd hright hforgetful
  · exact hagree

/-- The tables of the text `-x`. -/
def negationTables : Context where
  source := "-x".toList
  unquoted := "-x".toList
  symbols := [(Context.mainName, { text := "-x".toList, isCall := false })]
  constants := []
  params := [⟨"x", TypeMask.all⟩]

/-- The text `-x` can be built if `x` can, with every builder of parts. -/
theorem isOk_buildComposite_negation (build : Text → BuildM Node)
    (built : Std.HashMap BuildKey (Except CompileFault (Node × List TypeMask)))
    (hx : ∀ splits, (build "x".toList).run { params := negationTables.params, built, splits } =
      (.ok (.parameter 0), { params := negationTables.params, built, splits })) :
    (((common .mathematical negationTables).buildComposite build "-x".toList).run
      { params := negationTables.params, built }).1.isOk := by
  let t := common .mathematical negationTables
  change ((t.buildComposite build "-x".toList).run { params := negationTables.params, built }).1.isOk
  have hcandidates : t.candidates "-x".toList = [] :=
    (candidates_of_inner (by decide)).trans List.mergeSort_nil
  obtain ⟨negation, params, hassemble⟩ : ∃ negation params,
      Node.assemble (.unary .negate) [.parameter 0] negationTables.params = (.ok negation, params) := by
    have hok : (Node.assemble (.unary .negate) [.parameter 0] negationTables.params).1.isOk := by cbv
    rcases h : Node.assemble (.unary .negate) [.parameter 0] negationTables.params with
      ⟨fault | node, params⟩
    · rw [h] at hok
      cases hok
    · exact ⟨node, params, rfl⟩
  have hunary : t.unaryWays build "-x".toList =
      [do let operand ← build "x".toList; assemble (.unary .negate) [operand]] := rfl
  have hway : (do let operand ← build "x".toList; assemble (.unary .negate) [operand]).run
      (spent { params := negationTables.params, built }) =
        (.ok negation, { params, built, splits := 1 }) := by
    rw [spent, BuildM.run_bind, hx]
    simp only [run_assemble, hassemble]
    rfl
  have hbinary : (t.firstSuccess "-x".toList (t.binaryWays build "-x".toList)).run
      { params := negationTables.params, built } =
        (.ok none, { params := negationTables.params, built }) := by
    rw [binaryWays, hcandidates]
    rfl
  rw [buildComposite, if_neg (by decide), BuildM.run_bind, hbinary]
  have hspend : ¬maxSplits < 0 + 1 := by decide
  simp only [hunary, firstSuccess, BuildM.run_bind, run_attempt_ok hspend hway]
  rfl

/-- The text `-x` built a second time, with the parameter set back to any type: its outcome is
recalled, and is the one that building it anew would have. -/
theorem build_eq_forgetful_recalled :
    let t := common .mathematical negationTables
    let start : BuildState := { params := negationTables.params }
    let s : BuildState :=
      { ((t.buildWithin 3 Context.mainName).run start).2 with params := start.params, splits := 0 }
    s.built[({ text := "-x".toList, masks := s.masks } : BuildKey)]?.isSome ∧
      ((t.buildWithin 3 Context.mainName).run s).1.isOk ∧
      ((t.buildWithin 3 Context.mainName).run s).1 =
        ((t.forgetfulWithin 3 Context.mainName).run s).1 := by
  intro t start s
  have hvisited : t.Visited s := by
    have h : t.Visited ((t.buildWithin 3 Context.mainName).run start).2 := .build .start 3 _
    exact .retype h h.remembers.names.symm 0
  have hforgetful (built) : ((t.forgetfulWithin 3 Context.mainName).run
      { params := start.params, built }).1.isOk :=
    isOk_buildComposite_negation (t.forgetfulWithin 1) built fun _ => rfl
  have hrun (built) : (t.buildWithin 3 Context.mainName).run { params := start.params, built } =
      (remember "-x".toList (t.buildComposite (t.buildWithin 1) "-x".toList)).run
        { params := start.params, built } := rfl
  have hfirst : ((t.buildComposite (t.buildWithin 1) "-x".toList).run start).1.isOk :=
    isOk_buildComposite_negation (t.buildWithin 1) {} fun _ => rfl
  cases hnode : ((t.buildComposite (t.buildWithin 1) "-x".toList).run start).1 with
  | error fault =>
    rw [hnode] at hfirst
    exact absurd hfirst Bool.false_ne_true
  | ok node =>
  have hbuilt : s.built = ((t.buildWithin 3 Context.mainName).run start).2.built := rfl
  obtain ⟨masks, hfound⟩ : ∃ masks,
      s.built[({ text := "-x".toList, masks := s.masks } : BuildKey)]? =
        some (.ok (node, masks)) := by
    rw [hbuilt, hrun, run_remember, Std.HashMap.getElem?_empty, hnode]
    exact ⟨_, Std.HashMap.getElem?_insert_self⟩
  have hrecalled : ((t.buildWithin 3 Context.mainName).run s).1 = .ok node := by
    have hs : (t.buildWithin 3 Context.mainName).run s =
        (remember "-x".toList (t.buildComposite (t.buildWithin 1) "-x".toList)).run s :=
      hrun s.built
    rw [hs, run_remember, hfound]
    rfl
  have hplain : ((t.forgetfulWithin 3 Context.mainName).run s).1 ≠ .error .tooComplex := by
    intro h
    have hok := hforgetful s.built
    rw [show ((t.forgetfulWithin 3 Context.mainName).run
      { params := start.params, built := s.built }).1 = _ from h] at hok
    exact Bool.false_ne_true hok
  refine ⟨by rw [hfound]; rfl, by rw [hrecalled]; rfl, ?_⟩
  exact (build_eq_forgetful hvisited Context.mainName (by rw [hrecalled]; simp) hplain).1

end TreeBuilder

end Formula
