import Formula.Proofs.Compile.Memo

/-!
# What a text is built to

The builder counts its splits, bounds its nesting and remembers what it has built. None of this has a
part in the answer, as long as it does not give up. This module describes the answer alone. A text is
analysed: it is an operand, or it stands for another text, or there are ways of taking it for a head
applied to parts. The first way whose parts have answers and whose application can be assembled gives
the answer; ways that fail leave no trace.

The recursion has no bound, for a symbol could stand for itself over and over again. Where the builder
does not give up, it comes to an end.

## Main definitions

* `TreeBuilder.Analysis`, `TreeBuilder.analyze`: how a text is taken apart.
* `TreeBuilder.answer`: the tree of a text and the parameters it leaves, or that there is none.
* `TreeBuilder.Recollects`: what is remembered are answers.
* `TreeBuilder.Follows`: a build gives the answer unless it gives up.

## Main results

* `TreeBuilder.answer_eq`, `TreeBuilder.answer_induct`: one step, and what all steps keep.
* `TreeBuilder.answer_of_build`: the builder gives the answer, unless it gives up.
-/

namespace Formula

open Text

namespace TreeBuilder

/-! ### Analysing a text -/

/-- How a text is taken apart: it is an operand, it stands for another text, or it is a head applied to
parts, for the first of several ways that is possible. -/
inductive Analysis where
  | operand (node : Node)
  | other (text : Text)
  | applied (text : Text) (ways : List (Head × List Text))

/-- The way of taking a text for a call. -/
def callWays (t : TreeBuilder) (text : Text) : List (Head × List Text) :=
  match t.splitCall? text with
  | none => []
  | some (name, inner) =>
    match Function.lookup? (String.ofList name) (t.callArguments inner).length with
    | none => []
    | some f => [(.call f, t.callArguments inner)]

/-- The ways of splitting a text at a binary operator or after a unary one. -/
def splitWays (t : TreeBuilder) (text : Text) : List (Head × List Text) :=
  (t.candidates text).map (fun s =>
    (.binary s.op, [text.take s.place, text.drop (s.place + s.width)])) ++
      (t.leading text).map fun p => (.unary p.1, [p.2])

/-- How a name or a text is taken apart. -/
def analyze (t : TreeBuilder) (key : Text) : Analysis :=
  match t.context.constant? key with
  | some c => .operand (.constant c.value (String.ofList c.text))
  | none =>
    match Context.parameterIndex? t.context.params key with
    | some id => .operand (.parameter id)
    | none =>
      match t.context.symbol? key with
      | some s =>
        if s.text = key then .applied key []
        else if s.isCall then .applied s.text (t.callWays s.text)
        else .other s.text
      | none =>
        .applied key (if (t.splitCall? key).isSome then t.callWays key else t.splitWays key)

/-! ### Answers -/

/-- What comes of building something: it is built, under the parameters that it leaves, or there is no
way of building it. -/
abbrev Answer (α : Type) : Type :=
  Option (α × List Parameter)

/-- The application of a head to trees, if it can be assembled. -/
def assembled (head : Head) (operands : List Node) (params : List Parameter) : Answer Node :=
  match Node.assemble head operands params with
  | (.ok node, params) => some (node, params)
  | (.error _, _) => none

/-- The answers of the parts of a text in turn, where `answer` gives that of one. -/
def answerParts (answer : Text → List Parameter → Option (Answer Node)) :
    List Text → List Parameter → Option (Answer (List Node))
  | [], params => some (some ([], params))
  | part :: parts, params => do
    match ← answer part params with
    | none => return none
    | some (node, params) =>
      return (← answerParts answer parts params).map fun (nodes, params) => (node :: nodes, params)

/-- The answer that one way gives for a text. -/
def answerWay (t : TreeBuilder) (answer : Text → List Parameter → Option (Answer Node))
    (text : Text) (way : Head × List Text) (params : List Parameter) : Option (Answer Node) := do
  let found ← answerParts answer way.2 params
  return found.bind fun (nodes, params) => (assembled way.1 nodes params).map
    fun (node, params) => (node.fold t.registry (t.plain text), params)

/-- The answer of a name or a text, where `answer` gives that of its parts. -/
def answerStep (t : TreeBuilder) (answer : Text → List Parameter → Option (Answer Node))
    (key : Text) (params : List Parameter) : Option (Answer Node) :=
  match t.analyze key with
  | .operand node => some (some (node, params))
  | .other text => answer text params
  | .applied text ways => ways.findSomeM? fun way => t.answerWay answer text way params

/-- The answer of a name or a text. There is none at all where one leads back to itself without end. -/
def answer (t : TreeBuilder) (key : Text) (params : List Parameter) : Option (Answer Node) :=
  match t.analyze key with
  | .operand node => some (some (node, params))
  | .other text => t |>.answer text params
  | .applied text ways =>
    ways.findSomeM? fun way => do
      -- the fold is `answerParts`, in a form whose fixed point is known to exist
      let found ← way.2.foldlM (fun found part =>
        match found with
        | none => some none
        | some (nodes, params) => do
          let result ← t |>.answer part params
          return result.map fun (node, params) => (nodes ++ [node], params))
        (some ([], params))
      return found.bind fun (nodes, params) => (assembled way.1 nodes params).map
        fun (node, params) => (node.fold t.registry (t.plain text), params)
partial_fixpoint

theorem foldlM_none (answer : Text → List Parameter → Option (Answer Node)) (parts : List Text) :
    parts.foldlM (fun (found : Answer (List Node)) part =>
      match found with
      | none => some none
      | some (nodes, params) => do
        let result ← answer part params
        return result.map fun (node, params) => (nodes ++ [node], params)) none = some none := by
  induction parts with
  | nil => rfl
  | cons part parts ih => exact ih

theorem foldlM_eq_answerParts (answer : Text → List Parameter → Option (Answer Node))
    (parts : List Text) (before : List Node) (params : List Parameter) :
    parts.foldlM (fun (found : Answer (List Node)) part =>
      match found with
      | none => some none
      | some (nodes, params) => do
        let result ← answer part params
        return result.map fun (node, params) => (nodes ++ [node], params)) (some (before, params)) =
      (answerParts answer parts params).map
        (Option.map fun found => (before ++ found.1, found.2)) := by
  induction parts generalizing before params with
  | nil => simp [answerParts]
  | cons part parts ih =>
    rw [List.foldlM_cons, answerParts]
    dsimp only
    rcases answer part params with _ | _ | ⟨node, params'⟩
    · rfl
    · exact foldlM_none answer parts
    · refine (ih (before ++ [node]) params').trans ?_
      change _ = Option.map _ (Option.bind (answerParts answer parts params') _)
      rcases answerParts answer parts params' with _ | _ | ⟨nodes, params''⟩
      · rfl
      · rfl
      · simp

theorem answer_body (t : TreeBuilder) (answer : Text → List Parameter → Option (Answer Node))
    (text : Text) (way : Head × List Text) (params : List Parameter) :
    (do
      let found ← way.2.foldlM (fun (found : Answer (List Node)) part =>
        match found with
        | none => some none
        | some (nodes, params) => do
          let result ← answer part params
          return result.map fun (node, params) => (nodes ++ [node], params))
        (some ([], params))
      return found.bind fun (nodes, params) => (assembled way.1 nodes params).map
        fun (node, params) => (node.fold t.registry (t.plain text), params)) =
      t.answerWay answer text way params := by
  rw [foldlM_eq_answerParts, answerWay]
  rcases answerParts answer way.2 params with _ | _ | ⟨nodes, params'⟩ <;> rfl

theorem answer_eq (t : TreeBuilder) (key : Text) (params : List Parameter) :
    t.answer key params = t.answerStep t.answer key params := by
  rw [answer, answerStep]
  split
  · rfl
  · rfl
  · exact congrArg (fun f => List.findSomeM? f _) (funext fun way => answer_body ..)

/-- What one step keeps holds of all answers. -/
theorem answer_induct (t : TreeBuilder) {motive : Text → List Parameter → Answer Node → Prop}
    (h : ∀ answer : Text → List Parameter → Option (Answer Node),
      (∀ key params r, answer key params = some r → motive key params r) →
        ∀ key params r, t.answerStep answer key params = some r → motive key params r)
    {key : Text} {params : List Parameter} {r : Answer Node} (hr : t.answer key params = some r) :
    motive key params r := by
  refine answer.partial_correctness t motive (fun answer ih key params r hr => ?_) key params r hr
  refine h answer ih key params r ?_
  rw [← hr, answerStep]
  split
  · rfl
  · rfl
  · exact congrArg (fun f => List.findSomeM? f _) (funext fun way => (answer_body ..).symm)

/-! ### Following the builder -/

/-- What is remembered of a text is its answer, under all parameters with the remembered types. -/
def Recalled (t : TreeBuilder) (key : BuildKey) (entry : Except CompileFault (Node × List TypeMask)) :
    Prop :=
  entry = .error .tooComplex ∨ ∀ s : BuildState,
    s.params.map Parameter.name = t.context.params.map Parameter.name → s.masks = key.masks →
      t.answer key.text s.params =
        some (entry.toOption.map fun found => (found.1, (s.withMasks found.2).params))

/-- The parameters are those of the tables, and what is remembered are answers. -/
structure Recollects (t : TreeBuilder) (s : BuildState) : Prop where
  names : s.params.map Parameter.name = t.context.params.map Parameter.name
  built : ∀ (key : BuildKey) entry, s.built[key]? = some entry → t.Recalled key entry ∧
    ∀ node masks, entry = .ok (node, masks) → masks.length = t.context.params.length

/-- What came of a build: a result under the parameters of the state, or none. -/
def outcome {α : Type} (r : Except CompileFault α × BuildState) : Answer α :=
  r.1.toOption.map fun a => (a, r.2.params)

/-- Building keeps what is remembered right, and what comes of it is a given answer unless it gives
up. -/
def Follows {α : Type} (t : TreeBuilder) (m : BuildM α)
    (answer : List Parameter → Option (Answer α)) : Prop :=
  ∀ s, t.Recollects s → t.Recollects (m.run s).2 ∧
    ((m.run s).1 = .error .tooComplex ∨ answer s.params = some (outcome (m.run s)))

section Rules

variable {t : TreeBuilder} {α β : Type}

theorem follows_pure (a : α) : t.Follows (pure a) fun params => some (some (a, params)) :=
  fun _ hs => ⟨hs, .inr rfl⟩

theorem follows_throw (fault : CompileFault) :
    t.Follows (throw fault : BuildM α) fun _ => some none :=
  fun _ hs => ⟨hs, .inr rfl⟩

theorem follows_bind {m : BuildM α} {answer : List Parameter → Option (Answer α)} {f : α → BuildM β}
    {g : α → List Parameter → Option (Answer β)} (hm : t.Follows m answer)
    (hf : ∀ a, t.Follows (f a) (g a)) :
    t.Follows (m >>= f) fun params => (answer params).bind fun found => match found with
      | none => some none
      | some (a, params) => g a params := by
  intro s hs
  obtain ⟨hkept, hanswer⟩ := hm s hs
  simp only [BuildM.run_bind]
  cases hrun : m.run s with
  | mk result s' =>
  rw [hrun] at hkept hanswer
  cases result with
  | error fault =>
    refine ⟨hkept, hanswer.imp (fun h => ?_) fun h => ?_⟩
    · simpa using h
    · rw [h]
      rfl
  | ok a =>
    obtain ⟨hkept', hanswer'⟩ := hf a s' hkept
    have hanswer := hanswer.resolve_left (by simp)
    exact ⟨hkept', hanswer'.imp_right fun h => by rw [hanswer]; exact h⟩

theorem Follows.congr {m : BuildM α} {answer answer' : List Parameter → Option (Answer α)}
    (h : t.Follows m answer) (heq : ∀ params, answer params = answer' params) :
    t.Follows m answer' :=
  fun s hs => ⟨(h s hs).1, (h s hs).2.imp_right fun hs => (heq _).symm.trans hs⟩

theorem follows_assemble (head : Head) (operands : List Node) :
    t.Follows (assemble head operands) fun params => some (assembled head operands params) := by
  intro s hs
  have hrun : (assemble head operands).run s =
      ((Node.assemble head operands s.params).1.mapError .illTyped,
        { s with params := (Node.assemble head operands s.params).2 }) := by
    rw [assemble, BuildM.run_bind, BuildM.run_get]
    dsimp only
    rcases Node.assemble head operands s.params with ⟨fault | node, params⟩ <;> rfl
  have hnames := (Node.narrows_assemble head operands s.params).1
  rw [hrun]
  refine ⟨⟨hnames.trans hs.names, hs.built⟩, .inr ?_⟩
  simp only [assembled]
  rcases Node.assemble head operands s.params with ⟨fault | node, params⟩ <;> rfl

theorem follows_mapM {build : Text → BuildM Node}
    {answer : Text → List Parameter → Option (Answer Node)} {parts : List Text}
    (h : ∀ part, t.Follows (build part) (answer part)) :
    t.Follows (parts.mapM build) (answerParts answer parts) := by
  induction parts with
  | nil =>
    rw [List.mapM_nil]
    exact follows_pure []
  | cons part parts ih =>
    rw [List.mapM_cons]
    refine (follows_bind (h part) fun node => follows_bind ih fun nodes =>
      follows_pure (node :: nodes)).congr fun params => ?_
    rw [answerParts]
    rcases answer part params with _ | _ | ⟨node, params'⟩
    · rfl
    · rfl
    · change Option.bind (answerParts answer parts params') _ =
        Option.bind (answerParts answer parts params') _
      rcases answerParts answer parts params' with _ | _ | ⟨nodes, params''⟩ <;> rfl

/-- What comes of attempts: the result of one, or that there is none, under the parameters there were
before. -/
def settled (params : List Parameter) : Answer Node → Answer (Option Node)
  | some (node, params) => some (some node, params)
  | none => some (none, params)

/-- An attempt that fails is undone. -/
theorem follows_attempt (text : Text) {way : BuildM Node}
    {answer : List Parameter → Option (Answer Node)} (h : t.Follows way answer) :
    t.Follows (t.attempt text way) fun params => do
      let found ← answer params
      return settled params (found.map fun (node, params) =>
        (node.fold t.registry (t.plain text), params)) := by
  intro s hs
  obtain ⟨hkept, hanswer⟩ := h (spent s) ⟨hs.names, hs.built⟩
  by_cases hlimit : maxSplits < s.splits + 1
  · rw [run_attempt_exhausted hlimit]
    exact ⟨⟨hs.names, hs.built⟩, .inl rfl⟩
  cases hrun : way.run (spent s) with
  | mk result s' =>
  rw [hrun] at hkept hanswer
  have hanswer : result = .error .tooComplex ∨ answer s.params = some (outcome (result, s')) :=
    hanswer
  cases result with
  | ok node =>
    rw [run_attempt_ok hlimit hrun]
    refine ⟨hkept, .inr ?_⟩
    change Option.bind (answer s.params) _ = _
    rw [hanswer.resolve_left (by simp)]
    rfl
  | error fault =>
    by_cases hfault : fault = .tooComplex
    · subst hfault
      rw [run_attempt_tooComplex hlimit hrun]
      exact ⟨hkept, .inl rfl⟩
    · rw [run_attempt_error hlimit hfault hrun]
      refine ⟨⟨hs.names, hkept.built⟩, .inr ?_⟩
      change Option.bind (answer s.params) _ = _
      rw [hanswer.resolve_left (by simpa using hfault)]
      rfl

theorem findSomeM?_append {f : α → Option (Option β)} (l l' : List α) :
    (l ++ l').findSomeM? f = (l.findSomeM? f).bind fun found => match found with
      | some b => some (some b)
      | none => l'.findSomeM? f := by
  induction l with
  | nil => rfl
  | cons a l ih =>
    rw [List.cons_append, List.findSomeM?_cons, List.findSomeM?_cons]
    rcases f a with _ | _ | b
    · rfl
    · exact ih
    · rfl

end Rules

section Ways

variable {t : TreeBuilder} {build : Text → BuildM Node}
  {answer : Text → List Parameter → Option (Answer Node)}
  (h : ∀ text, t.Follows (build text) (answer text))
include h

/-- Building the parts of a text and assembling them. -/
theorem follows_parts (head : Head) (parts : List Text) :
    t.Follows (parts.mapM build >>= assemble head) fun params => do
      let found ← answerParts answer parts params
      return found.bind fun (nodes, params) => assembled head nodes params := by
  refine (follows_bind (follows_mapM h) fun nodes => follows_assemble head nodes).congr
    fun params => ?_
  rcases answerParts answer parts params with _ | _ | ⟨nodes, params'⟩ <;> rfl

theorem follows_firstSuccess (text : Text) (ways : List (Head × List Text)) :
    t.Follows (t.firstSuccess text (ways.map fun way => way.2.mapM build >>= assemble way.1))
      fun params => do
        let found ← ways.findSomeM? fun way => t.answerWay answer text way params
        return settled params found := by
  induction ways with
  | nil => exact follows_pure none
  | cons way ways ih =>
    rw [List.map_cons, firstSuccess]
    refine (follows_bind (g := fun found params => found.elim
        (do
          let found ← ways.findSomeM? fun way => t.answerWay answer text way params
          return settled params found)
        fun node => some (some (some node, params)))
      (follows_attempt text (follows_parts h way.1 way.2)) fun found => ?_).congr fun params => ?_
    · cases found with
      | some node => exact follows_pure _
      | none => exact ih
    · rw [List.findSomeM?_cons, answerWay]
      rcases answerParts answer way.2 params with _ | _ | ⟨nodes, params'⟩
      · rfl
      · rfl
      · change Option.bind (some (settled params (Option.map _ (assembled way.1 nodes params')))) _ =
          Option.bind (Option.bind (some (Option.map _ (assembled way.1 nodes params'))) _) _
        rcases assembled way.1 nodes params' with _ | ⟨node, params''⟩ <;> rfl

theorem follows_buildCall (text : Text) : t.Follows (t.buildCall build text) fun params =>
    (t.callWays text).findSomeM? fun way => t.answerWay answer text way params := by
  rw [buildCall, callWays]
  cases t.splitCall? text with
  | none => exact follows_throw _
  | some call =>
    obtain ⟨name, inner⟩ := call
    dsimp only
    rw [callArguments]
    generalize (if inner = [] then [] else splitAll t.tokens.separator inner) = args
    cases Function.lookup? (String.ofList name) args.length with
    | none => exact follows_throw _
    | some f =>
      refine (follows_bind (follows_mapM h) fun nodes => follows_bind
        (follows_assemble (.call f) nodes) fun node => follows_pure _).congr fun params => ?_
      rw [List.findSomeM?_cons, answerWay]
      rcases answerParts answer args params with _ | _ | ⟨nodes, params'⟩
      · rfl
      · rfl
      · simp only [Option.bind_eq_bind, Option.bind_some]
        rcases assembled (.call f) nodes params' with _ | ⟨node, params''⟩ <;> rfl

theorem follows_buildComposite (text : Text) : t.Follows (t.buildComposite build text)
    fun params => (if (t.splitCall? text).isSome then t.callWays text
      else t.splitWays text).findSomeM? fun way => t.answerWay answer text way params := by
  rw [buildComposite]
  split
  · exact follows_buildCall h text
  have hbinary : t.binaryWays build text = ((t.candidates text).map fun s =>
      ((Head.binary s.op, [text.take s.place, text.drop (s.place + s.width)]) :
        Head × List Text)).map fun way => way.2.mapM build >>= assemble way.1 := by
    rw [binaryWays, List.map_map]
    refine List.map_congr_left fun s _ => ?_
    simp
  have hunary : t.unaryWays build text = ((t.leading text).map fun p =>
      ((Head.unary p.1, [p.2]) : Head × List Text)).map fun way =>
        way.2.mapM build >>= assemble way.1 := by
    rw [unaryWays_eq_map, List.map_map]
    refine List.map_congr_left fun p _ => ?_
    simp
  rw [hbinary, hunary, splitWays]
  refine (follows_bind (follows_firstSuccess h text _) (g := fun found params => found.elim
      (((t.leading text).map fun p => ((Head.unary p.1, [p.2]) : Head × List Text)).findSomeM?
        fun way => t.answerWay answer text way params)
      fun node => some (some (node, params))) fun found => ?_).congr fun params => ?_
  · cases found with
    | some node => exact follows_pure node
    | none =>
      refine (follows_bind (follows_firstSuccess h text _) (g := fun found params =>
        some (found.map fun node => (node, params))) fun found => ?_).congr fun params => ?_
      · cases found with
        | some node => exact follows_pure node
        | none => exact follows_throw _
      · rcases List.findSomeM? _ _ with _ | _ | ⟨node, params'⟩ <;> rfl
  · rw [findSomeM?_append]
    rcases List.findSomeM? _ (List.map _ (t.candidates text)) with _ | _ | ⟨node, params'⟩ <;> rfl

end Ways

section Recollection

variable {t : TreeBuilder}

/-- What is recalled is the answer, and what is built anew is one to be remembered. -/
theorem follows_remember {text : Text} {build : BuildM Node} (h : t.Follows build (t.answer text)) :
    t.Follows (remember text build) (t.answer text) := by
  intro s hs
  rw [run_remember]
  split
  · next entry hfound =>
    obtain ⟨hrecalled, hlen⟩ := hs.built _ entry hfound
    have hanswer := hrecalled.imp_right fun h => h s hs.names rfl
    cases entry with
    | error fault =>
      refine ⟨hs, hanswer.imp (fun h => ?_) fun h => h⟩
      obtain rfl := Except.error.inj h
      rfl
    | ok found =>
      have hlen : found.2.length = s.params.length := by
        rw [hlen found.1 found.2 rfl]
        simpa using (congrArg List.length hs.names).symm
      exact ⟨⟨(names_withMasks hlen).trans hs.names, hs.built⟩,
        .inr (hanswer.resolve_left (by simp))⟩
  · obtain ⟨hkept, hanswer⟩ := h s hs
    refine ⟨⟨hkept.names, fun key entry hentry => ?_⟩, hanswer⟩
    rw [Std.HashMap.getElem?_insert] at hentry
    split at hentry
    · next heq =>
      obtain rfl := eq_of_beq heq
      obtain rfl := Option.some.inj hentry
      refine ⟨?_, fun node masks hok => ?_⟩
      · refine hanswer.imp (fun h => ?_) fun h s₁ hnames hmasks => ?_
        · rw [h]
          rfl
        · -- the state differs, the parameters do not
          rw [params_eq_of_masks_eq (hnames.trans hs.names.symm) hmasks, h, outcome]
          cases (build.run s).1 with
          | error fault => rfl
          | ok node =>
            have := withMasks_params_eq (hkept.names.trans hnames.symm)
            simp only [Except.map, Except.toOption, Option.map_some, this]
      · cases hout : (build.run s).1 with
        | error fault => simp [hout, Except.map] at hok
        | ok result =>
          simp only [hout, Except.map, Except.ok.injEq, Prod.mk.injEq] at hok
          rw [← hok.2, BuildState.masks, List.length_map]
          simpa using congrArg List.length hkept.names
    · exact hkept.built key entry hentry

theorem follows_buildStep {build : Text → BuildM Node}
    (h : ∀ text, t.Follows (build text) (t.answer text)) (key : Text) :
    t.Follows (t.buildStep build key) (t.answer key) := by
  have hstep (params : List Parameter) := t.answer_eq key params
  simp only [answerStep, analyze] at hstep
  rw [buildStep]
  cases hconstant : t.context.constant? key with
  | some c =>
    simp only [hconstant] at hstep
    exact (follows_pure _).congr fun params => (hstep params).symm
  | none =>
  intro s hs
  simp only [BuildM.run_bind, BuildM.run_get, parameterIndex?_congr hs.names]
  cases hindex : Context.parameterIndex? t.context.params key with
  | some id =>
    simp only [hconstant, hindex] at hstep
    exact (follows_pure _).congr (fun params => (hstep params).symm) s hs
  | none =>
    cases hsymbol : t.context.symbol? key with
    | none =>
      simp only [hconstant, hindex, hsymbol] at hstep
      exact follows_remember ((follows_buildComposite h key).congr fun params => (hstep params).symm)
        s hs
    | some symbol =>
      simp only [hconstant, hindex, hsymbol] at hstep
      dsimp only
      split
      · next hself =>
        simp only [hself, if_true] at hstep
        exact (follows_throw _).congr (fun params => (hstep params).symm) s hs
      · next hself =>
        split
        · next hcall =>
          simp only [hself, hcall, if_false, if_true] at hstep
          exact (follows_buildCall h symbol.text).congr (fun params => (hstep params).symm) s hs
        · next hcall =>
          simp only [hself, hcall, if_false] at hstep
          exact (h symbol.text).congr (fun params => (hstep params).symm) s hs

theorem follows_buildWithin (t : TreeBuilder) (depth : Nat) (key : Text) :
    t.Follows (t.buildWithin depth key) (t.answer key) := by
  induction depth generalizing key with
  | zero => exact fun s hs => ⟨hs, .inl rfl⟩
  | succ depth ih => exact follows_buildStep ih key

/-- The builder gives the answer, unless it gives up. -/
theorem answer_of_build (t : TreeBuilder) (key : Text)
    (h : ((t.build key).run { params := t.context.params }).1 ≠ .error .tooComplex) :
    t.answer key t.context.params =
      some (outcome ((t.build key).run { params := t.context.params })) :=
  ((t.follows_buildWithin _ key { params := t.context.params }
    ⟨rfl, fun key entry hentry => by simp at hentry⟩).2).resolve_left h

end Recollection

end TreeBuilder

end Formula
