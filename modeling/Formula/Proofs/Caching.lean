import Formula.Engine
import Formula.Proofs.Evaluation
import Formula.Proofs.Lowering.Draws

/-!
# Caching is invisible

An engine keeps the expression of each text it is asked for, and an expression keeps the programs
it has been lowered to. A client holds on to expressions and evaluates them later, also after the
engine has forgotten their texts. Whatever has been asked before, the answer is that of the text
compiled afresh and evaluated once.

Two invariants carry this. An expression is *faithful* if each program it keeps is what its tree is
lowered to for the types and every allowance of the key. No other allowance has the key, because the
identity of an allowance is injective, and a failed lowering is not kept. An engine is *consistent*
if each slot holds, up to the programs kept, what its text compiles to.

## Main definitions

* `Expression.bare`: an expression without the programs it keeps.
* `Expression.Faithful`: the invariant of an expression.
* `Engine.Request`, `Engine.Session`, `Engine.Session.serve`: what a client asks, and the answers.
* `Engine.Request.fresh`: the answer without any caching.
* `Engine.Session.Consistent`: the invariant of a session.

## Main results

* `Expression.Faithful.map_fst_program`: a kept program is the one that would be lowered.
* `Expression.Faithful.evaluateWith`: an evaluation does not show what is kept, and keeps the
  invariant.
* `Engine.Session.Consistent.serve`, `Engine.Session.Consistent.run`: one request, and a history.
* `Engine.Session.serve_eq_fresh`: caching is invisible.
-/

namespace Formula

/-! ### The identity of an allowance -/

theorem Tolerance.Kind.key_injective : Function.Injective Tolerance.Kind.key := by
  intro a b h
  have hbits (x y : Float) : x.toBits = y.toBits ↔ x = y := ⟨Binary64.eq_of_bits, congrArg _⟩
  cases a <;> cases b <;> simp_all [key]

theorem Tolerance.bind_key? (tolerance : Option Tolerance) :
    tolerance.bind Tolerance.key? =
      (tolerance.bind Tolerance.honored?).map Tolerance.Kind.key := by
  cases tolerance <;> rfl

/-! ### Expressions -/

/-- The allowance that a tree is lowered with. -/
def Body.heeded? (body : Body) (tolerance : Option Tolerance) : Option Tolerance.Kind :=
  (if body.root.isTolerant then tolerance else none).bind Tolerance.honored?

/-- The arguments of an evaluation: in the order of the parameters, or looked up by name. -/
inductive Arguments where
  | inOrder (args : List Value)
  | byName (find : String → Option Value)

namespace Expression

/-- The expression without the programs it keeps. -/
def bare (e : Expression) : Expression :=
  { e with lowered := ∅ }

/-- Whether the expression calls a random function. -/
def isRandom (e : Expression) : Bool :=
  e.body.any fun body => body.root.isRandom

/-- Evaluates an expression on arguments. -/
def evaluateWith (e : Expression) (draws : Draws) (arguments : Arguments)
    (tolerance : Option Tolerance) : Evaluation :=
  match arguments with
  | .inOrder args => e.evaluate draws args tolerance
  | .byName find => e.evaluateNamed draws find tolerance

/-- The expressions there are: those of outcomes of compilations, and what evaluations leave of
them. -/
inductive Obtained : Expression → Prop
  | ofOutcome (registry : Registry) (source : String)
      (outcome : Except CompileFault (Node × List Parameter)) :
      Obtained (ofOutcome registry source outcome)
  | evaluate {e : Expression} (h : Obtained e) (draws : Draws) (args : List Value)
      (tolerance : Option Tolerance) : Obtained (e.evaluate draws args tolerance).expression

/-- Every program that is kept is what the tree is lowered to, for the types and every allowance it
is kept under. -/
def Faithful (e : Expression) : Prop :=
  ∀ body, e.body = some body → ∀ types (kind : Option Tolerance.Kind) lowering,
    e.lowered[((types, kind.map Tolerance.Kind.key) : LoweringKey)]? = some lowering →
      lower body types kind = .ok lowering

theorem body_eq_of_bare {e e' : Expression} (h : e.bare = e'.bare) : e.body = e'.body := by
  simpa [bare] using congrArg body h

theorem registry_eq_of_bare {e e' : Expression} (h : e.bare = e'.bare) :
    e.registry = e'.registry := by
  simpa [bare] using congrArg registry h

theorem source_eq_of_bare {e e' : Expression} (h : e.bare = e'.bare) : e.source = e'.source := by
  simpa [bare] using congrArg source h

theorem faithful_of_lowered_eq {e : Expression} (h : e.lowered = ∅) : e.Faithful := by
  intro body _ types kind lowering hkept
  simp [h] at hkept

theorem faithful_bare (e : Expression) : e.bare.Faithful :=
  faithful_of_lowered_eq rfl

/-- A program is one that is kept under the types and the allowance, or it is lowered now and at most
kept itself. -/
theorem program_cases (e : Expression) (body : Body) (types : List ValueType)
    (tolerance : Option Tolerance) :
    (∃ found, e.lowered[((types, (body.heeded? tolerance).map Tolerance.Kind.key) :
        LoweringKey)]? = some found ∧
      e.program body types tolerance = .ok (found, false, e)) ∨
    ∃ keep : Lowering → Expression,
      (keep = (fun _ => e) ∨ keep = fun made => { e with
        lowered := e.lowered.insert (types, (body.heeded? tolerance).map Tolerance.Kind.key)
          made }) ∧
      e.program body types tolerance =
        (lower body types (body.heeded? tolerance)).map fun made => (made, true, keep made) := by
  by_cases hrandom : body.root.isRandom = true
  · refine .inr ⟨_, .inl rfl, ?_⟩
    simp only [program, hrandom, if_true]
    rfl
  · cases hfound : e.lowered[((types, (body.heeded? tolerance).map Tolerance.Kind.key) :
      LoweringKey)]? with
    | some found =>
      refine .inl ⟨found, rfl, ?_⟩
      rw [Body.heeded?, ← Tolerance.bind_key?] at hfound
      simp only [program, hrandom, hfound]
      rfl
    | none =>
      refine .inr ⟨_, .inr rfl, ?_⟩
      rw [Body.heeded?, ← Tolerance.bind_key?] at hfound ⊢
      simp only [program, hrandom, hfound]
      rfl

namespace Faithful

variable {e : Expression} {body : Body}

/-- What is lowered now may be kept. -/
theorem insert (he : e.Faithful) (hbody : e.body = some body) {types : List ValueType}
    {kind : Option Tolerance.Kind} {lowering : Lowering}
    (h : lower body types kind = .ok lowering) :
    Faithful { e with
      lowered := e.lowered.insert (types, kind.map Tolerance.Kind.key) lowering } := by
  intro body' hbody' types' kind' lowering' hkept
  obtain rfl := Option.some.inj (hbody.symm.trans hbody')
  simp only [Std.HashMap.getElem?_insert] at hkept
  split at hkept
  · next heq =>
    obtain rfl := Option.some.inj hkept
    obtain ⟨rfl, hkey⟩ := Prod.mk.inj (eq_of_beq heq)
    rwa [← Option.map_injective Tolerance.Kind.key_injective hkey]
  · exact he body hbody' types' kind' lowering' hkept

/-- A program that is found is the one that would be lowered, and a lowering that fails leaves no
program behind. -/
theorem map_fst_program (he : e.Faithful) (hbody : e.body = some body) (types : List ValueType)
    (tolerance : Option Tolerance) :
    (e.program body types tolerance).map Prod.fst = lower body types (body.heeded? tolerance) := by
  rcases e.program_cases body types tolerance with ⟨found, hfound, h⟩ | ⟨keep, -, h⟩
  · rw [h, he body hbody types _ found hfound]
    rfl
  · rw [h]
    cases lower body types (body.heeded? tolerance) <;> rfl

/-- Finding or lowering a program changes nothing else, and keeps the invariant. -/
theorem of_program (he : e.Faithful) (hbody : e.body = some body) {types : List ValueType}
    {tolerance : Option Tolerance} {lowering : Lowering} {isNew : Bool} {e' : Expression}
    (h : e.program body types tolerance = .ok (lowering, isNew, e')) :
    e'.bare = e.bare ∧ e'.Faithful := by
  rcases e.program_cases body types tolerance with ⟨found, -, heq⟩ | ⟨keep, hkeep, heq⟩
  · rw [heq] at h
    obtain ⟨-, -, rfl⟩ : found = lowering ∧ false = isNew ∧ e = e' := by simpa using h
    exact ⟨rfl, he⟩
  · rw [heq] at h
    cases hlower : lower body types (body.heeded? tolerance) with
    | error fault => simp [hlower, Except.map] at h
    | ok made =>
      obtain ⟨-, -, rfl⟩ : made = lowering ∧ true = isNew ∧ keep made = e' := by
        simpa [hlower, Except.map] using h
      rcases hkeep with rfl | rfl
      · exact ⟨rfl, he⟩
      · exact ⟨rfl, he.insert hbody hlower⟩

theorem program_error (he : e.Faithful) (hbody : e.body = some body) {types : List ValueType}
    {tolerance : Option Tolerance} {fault : EvaluationFault}
    (h : lower body types (body.heeded? tolerance) = .error fault) :
    e.program body types tolerance = .error fault := by
  have hmap := (he.map_fst_program hbody types tolerance).trans h
  cases hprogram : e.program body types tolerance <;> simp_all [Except.map]

theorem program_ok (he : e.Faithful) (hbody : e.body = some body) {types : List ValueType}
    {tolerance : Option Tolerance} {lowering : Lowering}
    (h : lower body types (body.heeded? tolerance) = .ok lowering) :
    ∃ isNew e', e.program body types tolerance = .ok (lowering, isNew, e') ∧
      e'.bare = e.bare ∧ e'.Faithful := by
  have hmap := (he.map_fst_program hbody types tolerance).trans h
  cases hprogram : e.program body types tolerance with
  | error fault => simp [hprogram, Except.map] at hmap
  | ok out =>
    obtain ⟨found, isNew, e'⟩ := out
    obtain rfl : found = lowering := by simpa [hprogram, Except.map] using hmap
    exact ⟨isNew, e', rfl, he.of_program hbody hprogram⟩

/-- What an expression keeps does not show in the outcome of an evaluation; what is drawn for it
shows only if it calls a random function. -/
theorem outcome_evaluate {e' : Expression} (he : e.Faithful) (he' : e'.Faithful)
    (hbare : e.bare = e'.bare) {draws draws' : Draws}
    (hdraws : draws = draws' ∨ e.isRandom = false) (args : List Value)
    (tolerance : Option Tolerance) :
    (e.evaluate draws args tolerance).outcome = (e'.evaluate draws' args tolerance).outcome := by
  cases hbody : e.body with
  | none =>
    have hbody' := (body_eq_of_bare hbare).symm.trans hbody
    simp only [evaluate, hbody, hbody', settled]
  | some body =>
    have hbody' := (body_eq_of_bare hbare).symm.trans hbody
    simp only [evaluate, hbody, hbody', registry_eq_of_bare hbare]
    split
    · rfl
    · split
      · rfl
      · split
        · rfl
        · next coerced _ =>
          cases hlower : lower body (coerced.map Value.type) (body.heeded? tolerance) with
          | error fault =>
            rw [he.program_error hbody hlower, he'.program_error hbody' hlower]
            rfl
          | ok lowering =>
            obtain ⟨isNew, kept, hprogram, hkept, -⟩ := he.program_ok hbody hlower
            obtain ⟨isNew', kept', hprogram', hkept', -⟩ := he'.program_ok hbody' hlower
            have hregistry : kept'.registry = kept.registry :=
              registry_eq_of_bare (hkept'.trans (hbare.symm.trans hkept.symm))
            have hrun : lowering.program.run kept.registry draws coerced =
                lowering.program.run kept.registry draws' coerced := by
              rcases hdraws with rfl | hrandom
              · rfl
              · rw [isRandom, hbody] at hrandom
                exact run_draws hrandom hlower kept.registry draws draws' coerced
            rw [hprogram, hprogram']
            simp only [runProgram, hregistry, hrun]

/-- Evaluating changes an expression only in what it keeps, and keeps the invariant. -/
theorem evaluate (he : e.Faithful) (draws : Draws) (args : List Value)
    (tolerance : Option Tolerance) :
    (e.evaluate draws args tolerance).expression.bare = e.bare ∧
      (e.evaluate draws args tolerance).expression.Faithful := by
  rw [Expression.evaluate]
  split
  · exact ⟨rfl, he⟩
  · next body hbody =>
    split
    · exact ⟨rfl, he⟩
    · split
      · exact ⟨rfl, he⟩
      · split
        · exact ⟨rfl, he⟩
        · split
          · exact ⟨rfl, he⟩
          · next hprogram => exact he.of_program hbody hprogram

theorem evaluateWith (he : e.Faithful) (draws : Draws) (arguments : Arguments)
    (tolerance : Option Tolerance) :
    (e.evaluateWith draws arguments tolerance).expression.bare = e.bare ∧
      (e.evaluateWith draws arguments tolerance).expression.Faithful := by
  cases arguments with
  | inOrder args => exact he.evaluate draws args tolerance
  | byName find =>
    rw [Expression.evaluateWith, evaluateNamed]
    split
    · exact ⟨rfl, he⟩
    · exact he.evaluate draws _ tolerance

theorem outcome_evaluateWith {e' : Expression} (he : e.Faithful) (he' : e'.Faithful)
    (hbare : e.bare = e'.bare) {draws draws' : Draws}
    (hdraws : draws = draws' ∨ e.isRandom = false) (arguments : Arguments)
    (tolerance : Option Tolerance) :
    (e.evaluateWith draws arguments tolerance).outcome =
      (e'.evaluateWith draws' arguments tolerance).outcome := by
  cases arguments with
  | inOrder args => exact he.outcome_evaluate he' hbare hdraws args tolerance
  | byName find =>
    have hcollect : e'.collect find = e.collect find := by
      rw [collect, collect, parameters, parameters, body_eq_of_bare hbare]
    rw [Expression.evaluateWith, Expression.evaluateWith, evaluateNamed, evaluateNamed, hcollect]
    split
    · rfl
    · exact he.outcome_evaluate he' hbare hdraws _ tolerance

end Faithful

theorem Obtained.faithful {e : Expression} (h : e.Obtained) : e.Faithful := by
  induction h with
  | ofOutcome registry source outcome => exact faithful_of_lowered_eq rfl
  | evaluate _ draws args tolerance ih => exact (ih.evaluate draws args tolerance).2

end Expression

/-! ### Clients of an engine -/

namespace Engine

/-- What a client asks of an engine, and of the expressions it has been handed. An expression is
named by the number of those handed out before it. -/
inductive Request where
  | interpret (text : String)
  | execute (text : String) (arguments : Arguments)
  | clear
  | evaluate (handle : Nat) (arguments : Arguments) (tolerance : Option Tolerance)

/-- What a client gets: an expression, apart from what it keeps, or the outcome and the value of an
evaluation. -/
inductive Answer where
  | none
  | expression (e : Expression)
  | evaluation (outcome : Except EvaluationFault Value) (value : Value)

/-- What an evaluation shows. -/
def Answer.ofEvaluation (evaluation : Expression.Evaluation) : Answer :=
  .evaluation evaluation.outcome evaluation.value

/-- Evaluates a text on arguments. -/
def executeWith (engine : Engine) (draws : Draws) (text : String) (arguments : Arguments) :
    Expression.Evaluation × Engine :=
  match arguments with
  | .inOrder args => engine.execute draws text args
  | .byName find => engine.executeNamed draws text find

/-- An engine, with the slots of the expressions handed out, which the client shares. -/
structure Session where
  engine : Engine
  handed : List Nat := []

namespace Session

/-- Evaluates an expression that has been handed out. -/
def evaluate (session : Session) (draws : Draws) (handle : Nat) (arguments : Arguments)
    (tolerance : Option Tolerance) : Answer × Session :=
  match session.handed[handle]? with
  | none => (.none, session)
  | some slot =>
    match session.engine.slots[slot]?.bind Slot.expression with
    | none => (.none, session)
    | some e =>
      let evaluation := e.evaluateWith draws arguments tolerance
      (.ofEvaluation evaluation,
        { session with engine := session.engine.keep slot evaluation.expression })

/-- Serves a request, with the numbers drawn for it. -/
def serve (session : Session) (draws : Draws) : Request → Answer × Session
  | .interpret text =>
    let (slot, e, engine) := session.engine.interpret text
    (.expression e.bare, { engine, handed := session.handed ++ [slot] })
  | .execute text arguments =>
    let (evaluation, engine) := session.engine.executeWith draws text arguments
    (.ofEvaluation evaluation, { session with engine })
  | .clear => (.none, { session with engine := session.engine.clear })
  | .evaluate handle arguments tolerance => session.evaluate draws handle arguments tolerance

/-- Serves requests one after another. -/
def run (session : Session) : List (Draws × Request) → Session
  | [] => session
  | (draws, request) :: rest => run (session.serve draws request).2 rest

end Session

/-- The text whose expression a request hands out. -/
def Request.interpreted? : Request → Option String
  | .interpret text => some text
  | _ => none

/-- The texts of the expressions that requests hand out. -/
def handedTexts (history : List (Draws × Request)) : List String :=
  history.filterMap fun asked => asked.2.interpreted?

/-- The text that a request is about, given those of the expressions handed out. -/
def Request.text? (texts : List String) : Request → Option String
  | .interpret text | .execute text _ => some text
  | .clear => none
  | .evaluate handle _ _ => texts[handle]?

/-- The answer to a request if nothing is kept: the text is compiled afresh and evaluated once. -/
def Request.fresh (compile : String → Expression) (texts : List String) (draws : Draws) :
    Request → Answer
  | .interpret text => .expression (compile text).bare
  | .execute text arguments =>
    .ofEvaluation ((compile text).bare.evaluateWith draws arguments none)
  | .clear => .none
  | .evaluate handle arguments tolerance =>
    match texts[handle]? with
    | none => .none
    | some text =>
      .ofEvaluation ((compile text).bare.evaluateWith draws arguments tolerance)

/-! ### Consistent engines -/

/-- The slot is one of the text. -/
def Holds (engine : Engine) (slot : Nat) (text : String) : Prop :=
  ∃ held, engine.slots[slot]? = some held ∧ held.text = text

/-- The slot is one of the text and has its expression. -/
def Filled (engine : Engine) (slot : Nat) (text : String) : Prop :=
  ∃ held e, engine.slots[slot]? = some held ∧ held.text = text ∧ held.expression = some e

/-- Every slot holds, up to the programs kept, what its text compiles to, and every text that is
known has a slot of its own. -/
structure Consistent (compile : String → Expression) (engine : Engine) : Prop where
  compile_eq : engine.compile = compile
  slots : ∀ (slot : Nat) held e, engine.slots[slot]? = some held → held.expression = some e →
    e.bare = (compile held.text).bare ∧ e.Faithful
  cache : ∀ text slot, engine.cache.lookup text = some slot → engine.Holds slot text

/-- No slot is taken away, changes its text or is emptied. -/
structure Grows (engine engine' : Engine) : Prop where
  holds : ∀ slot text, engine.Holds slot text → engine'.Holds slot text
  filled : ∀ slot text, engine.Filled slot text → engine'.Filled slot text

theorem Filled.holds {engine : Engine} {slot : Nat} {text : String} (h : engine.Filled slot text) :
    engine.Holds slot text := by
  obtain ⟨held, e, hheld, htext, -⟩ := h
  exact ⟨held, hheld, htext⟩

theorem Grows.refl (engine : Engine) : engine.Grows engine :=
  ⟨fun _ _ => id, fun _ _ => id⟩

theorem Grows.trans {engine engine' engine'' : Engine} (h : engine.Grows engine')
    (h' : engine'.Grows engine'') : engine.Grows engine'' :=
  ⟨fun slot text hslot => h'.holds slot text (h.holds slot text hslot),
    fun slot text hslot => h'.filled slot text (h.filled slot text hslot)⟩

namespace Consistent

variable {compile : String → Expression} {engine : Engine} {text : String} {slot : Nat}

/-- Putting an expression of the text into a slot of the text. -/
theorem put (h : engine.Consistent compile) (hslot : engine.Holds slot text) {e : Expression}
    (he : e.bare = (compile text).bare ∧ e.Faithful) (engine' : Engine)
    (hcompile : engine'.compile = engine.compile)
    (hcache : engine'.cache = engine.cache)
    (hslots : ∀ i : Nat, engine'.slots[i]? =
      if i = slot then some ⟨text, some e⟩ else engine.slots[i]?) :
    engine'.Consistent compile ∧ engine.Grows engine' ∧ engine'.Filled slot text := by
  have hput : engine'.Filled slot text := ⟨_, e, by rw [hslots, if_pos rfl], rfl, rfl⟩
  have hholds : ∀ i text, engine.Holds i text → engine'.Holds i text := by
    rintro i _ ⟨held, hheld, rfl⟩
    by_cases hi : i = slot
    · subst hi
      obtain ⟨held', hheld', rfl⟩ := hslot
      obtain rfl := Option.some.inj (hheld.symm.trans hheld')
      exact ⟨⟨held.text, some e⟩, by rw [hslots, if_pos rfl], rfl⟩
    · exact ⟨held, by rw [hslots, if_neg hi, hheld], rfl⟩
  refine ⟨⟨hcompile.trans h.compile_eq, ?_, ?_⟩, ⟨hholds, ?_⟩, hput⟩
  · intro i held e' hheld he'
    rw [hslots] at hheld
    split at hheld
    · obtain rfl := Option.some.inj hheld
      obtain rfl := Option.some.inj he'
      exact he
    · exact h.slots i held e' hheld he'
  · intro text' i hi
    rw [hcache] at hi
    exact hholds i text' (h.cache text' i hi)
  · rintro i _ ⟨held, e', hheld, rfl, he'⟩
    by_cases hi : i = slot
    · subst hi
      obtain ⟨held', hheld', rfl⟩ := hslot
      obtain rfl := Option.some.inj (hheld.symm.trans hheld')
      exact hput
    · exact ⟨held, e', by rw [hslots, if_neg hi, hheld], rfl, he'⟩

theorem reserve (h : engine.Consistent compile) (text : String) :
    (engine.reserve text).2.Consistent compile ∧ engine.Grows (engine.reserve text).2 ∧
      (engine.reserve text).2.Holds (engine.reserve text).1 text := by
  rw [Engine.reserve]
  split
  · next slot hslot => exact ⟨h, .refl engine, h.cache text slot hslot⟩
  · dsimp only
    have hkept {i : Nat} {held : Slot} (hheld : engine.slots[i]? = some held) :
        (engine.slots.push { text })[i]? = some held := by
      obtain ⟨hi, rfl⟩ := Array.getElem?_eq_some_iff.mp hheld
      rw [Array.getElem?_push_lt hi]
    have hgrows : engine.Grows { engine with
        cache := (text, engine.slots.size) :: engine.cache
        slots := engine.slots.push { text } } := by
      constructor
      · rintro i _ ⟨held, hheld, rfl⟩
        exact ⟨held, hkept hheld, rfl⟩
      · rintro i _ ⟨held, e, hheld, rfl, he⟩
        exact ⟨held, e, hkept hheld, rfl, he⟩
    refine ⟨⟨h.compile_eq, ?_, ?_⟩, hgrows, ⟨{ text }, by simp, rfl⟩⟩
    · intro i held e hheld he
      rw [Array.getElem?_push] at hheld
      split at hheld
      · obtain rfl := Option.some.inj hheld
        cases he
      · exact h.slots i held e hheld he
    · intro text' i hi
      rw [List.lookup_cons] at hi
      split at hi
      · next heq =>
        obtain rfl := Option.some.inj hi
        exact ⟨{ text }, by simp, (eq_of_beq heq).symm⟩
      · exact hgrows.holds i text' (h.cache text' i hi)

theorem fill (h : engine.Consistent compile) (hfresh : (compile text).Obtained)
    (hslot : engine.Holds slot text) :
    (engine.fill slot text).2.Consistent compile ∧ engine.Grows (engine.fill slot text).2 ∧
      (engine.fill slot text).2.Filled slot text ∧
      (engine.fill slot text).1.bare = (compile text).bare ∧
      (engine.fill slot text).1.Faithful := by
  obtain ⟨held, hheld, rfl⟩ := hslot
  obtain rfl := h.compile_eq
  rw [Engine.fill]
  split
  · next e he =>
    rw [hheld, Option.bind_some] at he
    exact ⟨h, .refl engine, ⟨held, e, hheld, rfl, he⟩, h.slots slot held e hheld he⟩
  · dsimp only
    have hsize : slot < engine.slots.size := (Array.getElem?_eq_some_iff.mp hheld).1
    obtain ⟨hconsistent, hgrows, hfilled⟩ := h.put ⟨held, hheld, rfl⟩ ⟨rfl, hfresh.faithful⟩
      { engine with
        slots := engine.slots.setIfInBounds slot
          { text := held.text, expression := some (engine.compile held.text) }
        compiles := engine.compiles + 1 } rfl rfl
      fun i => by simp [Array.getElem?_setIfInBounds, hsize, eq_comm]
    exact ⟨hconsistent, hgrows, hfilled, rfl, hfresh.faithful⟩

theorem interpret (h : engine.Consistent compile) (hfresh : (compile text).Obtained) :
    (engine.interpret text).2.2.Consistent compile ∧ engine.Grows (engine.interpret text).2.2 ∧
      (engine.interpret text).2.2.Filled (engine.interpret text).1 text ∧
      (engine.interpret text).2.1.bare = (compile text).bare ∧
      (engine.interpret text).2.1.Faithful := by
  obtain ⟨hreserve, hgrows, hslot⟩ := h.reserve text
  obtain ⟨hfill, hgrows', hrest⟩ := hreserve.fill hfresh hslot
  exact ⟨hfill, hgrows.trans hgrows', hrest⟩

theorem keep (h : engine.Consistent compile) (hslot : engine.Holds slot text) {e : Expression}
    (he : e.bare = (compile text).bare ∧ e.Faithful) :
    (engine.keep slot e).Consistent compile ∧ engine.Grows (engine.keep slot e) := by
  obtain ⟨held, hheld, rfl⟩ := hslot
  obtain ⟨hconsistent, hgrows, -⟩ := h.put ⟨held, hheld, rfl⟩ he (engine.keep slot e)
    rfl rfl fun i => by
      rw [Engine.keep, Array.getElem?_modify]
      by_cases hi : i = slot
      · subst hi
        simp [hheld]
      · simp [hi, Ne.symm hi]
  exact ⟨hconsistent, hgrows⟩

theorem clear (h : engine.Consistent compile) :
    engine.clear.Consistent compile ∧ engine.Grows engine.clear :=
  ⟨⟨h.compile_eq, h.slots, by simp [Engine.clear]⟩, fun _ _ => id, fun _ _ => id⟩

end Consistent

theorem consistent_start (compile : String → Expression) :
    ({ compile } : Engine).Consistent compile :=
  ⟨rfl, by simp, by simp⟩

theorem executeWith_eq (engine : Engine) (draws : Draws) (text : String) (arguments : Arguments) :
    engine.executeWith draws text arguments =
      engine.evaluateBy text fun e => e.evaluateWith draws arguments none := by
  cases arguments <;> rfl

/-! ### Sessions -/

/-- Evaluations of two expressions that differ in what they keep show the same. -/
theorem ofEvaluation_evaluateWith {e e' : Expression} (he : e.Faithful) (he' : e'.Faithful)
    (hbare : e.bare = e'.bare) {draws draws' : Draws}
    (hdraws : draws = draws' ∨ e.isRandom = false) (arguments : Arguments)
    (tolerance : Option Tolerance) :
    Answer.ofEvaluation (e.evaluateWith draws arguments tolerance) =
      Answer.ofEvaluation (e'.evaluateWith draws' arguments tolerance) := by
  have houtcome := he.outcome_evaluateWith he' hbare hdraws arguments tolerance
  have hsource : (e.evaluateWith draws arguments tolerance).expression.source =
      (e'.evaluateWith draws' arguments tolerance).expression.source :=
    Expression.source_eq_of_bare <| (he.evaluateWith draws arguments tolerance).1.trans <|
      hbare.trans (he'.evaluateWith draws' arguments tolerance).1.symm
  rw [Answer.ofEvaluation, Answer.ofEvaluation, Expression.Evaluation.value,
    Expression.Evaluation.value, houtcome, hsource]

namespace Session

/-- The engine is consistent, and the slots handed out are those of the texts handed out. -/
structure Consistent (compile : String → Expression) (texts : List String)
    (session : Session) : Prop where
  engine : session.engine.Consistent compile
  handed : List.Forall₂ session.engine.Filled session.handed texts

theorem consistent_start (compile : String → Expression) :
    ({ engine := { compile } } : Session).Consistent compile [] :=
  ⟨Engine.consistent_start compile, .nil⟩

namespace Consistent

variable {compile : String → Expression} {texts : List String} {session : Session}

theorem grow (h : session.Consistent compile texts) {engine : Engine}
    (hengine : engine.Consistent compile) (hgrows : session.engine.Grows engine) :
    Consistent compile texts { session with engine } :=
  ⟨hengine, h.handed.imp hgrows.filled⟩

theorem evaluate (h : session.Consistent compile texts) (draws : Draws) (handle : Nat)
    (arguments : Arguments) (tolerance : Option Tolerance) :
    (session.evaluate draws handle arguments tolerance).1 =
        Request.fresh compile texts draws (.evaluate handle arguments tolerance) ∧
      (session.evaluate draws handle arguments tolerance).2.Consistent compile texts := by
  obtain ⟨hlen, hall⟩ := List.forall₂_iff_get.mp h.handed
  by_cases hlt : handle < session.handed.length
  · obtain ⟨held, e, hheld, htext, he⟩ := hall handle hlt (hlen ▸ hlt)
    obtain ⟨hbare, hfaithful⟩ := h.engine.slots _ held e hheld he
    rw [htext] at hbare
    have hevaluated := hfaithful.evaluateWith draws arguments tolerance
    obtain ⟨hkept, hgrows⟩ := h.engine.keep ⟨held, hheld, htext⟩
      ⟨hevaluated.1.trans hbare, hevaluated.2⟩
    have hslot : session.handed[handle]? = some (session.handed.get ⟨handle, hlt⟩) :=
      List.getElem?_eq_getElem hlt
    have htexts : texts[handle]? = some (texts.get ⟨handle, hlen ▸ hlt⟩) :=
      List.getElem?_eq_getElem (hlen ▸ hlt)
    simp only [Session.evaluate, Request.fresh, hslot, htexts, hheld, Option.bind_some, he]
    exact ⟨ofEvaluation_evaluateWith hfaithful (Expression.faithful_bare _) hbare (.inl rfl)
      arguments tolerance, h.grow hkept hgrows⟩
  · have hslot : session.handed[handle]? = none := List.getElem?_eq_none (Nat.le_of_not_lt hlt)
    have htexts : texts[handle]? = none := List.getElem?_eq_none (hlen ▸ Nat.le_of_not_lt hlt)
    simp only [Session.evaluate, Request.fresh, hslot, htexts]
    exact ⟨trivial, h⟩

/-- One request: the answer is the one without any caching, and the invariant is kept. -/
theorem serve (h : session.Consistent compile texts) (hcompile : ∀ text, (compile text).Obtained)
    (draws : Draws) (request : Request) :
    (session.serve draws request).1 = request.fresh compile texts draws ∧
      (session.serve draws request).2.Consistent compile
        (texts ++ request.interpreted?.toList) := by
  cases request with
  | interpret text =>
    obtain ⟨hengine, hgrows, hfilled, hbare, -⟩ := h.engine.interpret (hcompile text)
    refine ⟨congrArg Answer.expression hbare, hengine, ?_⟩
    exact List.rel_append (h.handed.imp hgrows.filled) (.cons hfilled .nil)
  | execute text arguments =>
    obtain ⟨hengine, hgrows, hfilled, hbare, hfaithful⟩ := h.engine.interpret (hcompile text)
    have hevaluated := hfaithful.evaluateWith draws arguments none
    obtain ⟨hkept, hgrows'⟩ := hengine.keep hfilled.holds
      ⟨hevaluated.1.trans hbare, hevaluated.2⟩
    simp only [Request.interpreted?, Option.toList_none, List.append_nil, Session.serve,
      executeWith_eq, evaluateBy]
    exact ⟨ofEvaluation_evaluateWith hfaithful (Expression.faithful_bare _) hbare (.inl rfl)
      arguments none, h.grow hkept (hgrows.trans hgrows')⟩
  | clear =>
    obtain ⟨hengine, hgrows⟩ := h.engine.clear
    simp only [Request.interpreted?, Option.toList_none, List.append_nil]
    exact ⟨rfl, h.grow hengine hgrows⟩
  | evaluate handle arguments tolerance =>
    simp only [Request.interpreted?, Option.toList_none, List.append_nil]
    exact h.evaluate draws handle arguments tolerance

/-- A whole history keeps the invariant. -/
theorem run (h : session.Consistent compile texts) (hcompile : ∀ text, (compile text).Obtained)
    (history : List (Draws × Request)) :
    (session.run history).Consistent compile (texts ++ handedTexts history) := by
  induction history generalizing session texts with
  | nil => simpa [Session.run, handedTexts] using h
  | cons asked rest ih =>
    obtain ⟨draws, request⟩ := asked
    have hrest := ih (h.serve hcompile draws request).2
    have htexts : texts ++ handedTexts ((draws, request) :: rest) =
        texts ++ request.interpreted?.toList ++ handedTexts rest := by
      rw [List.append_assoc, handedTexts, handedTexts, List.filterMap_cons]
      cases request.interpreted? <;> rfl
    rw [htexts]
    exact hrest

end Consistent

/-- If the expression that a request is about calls no random function, then nothing that is drawn
shows in the answer. -/
theorem fresh_draws (compile : String → Expression) {texts : List String} {request : Request}
    (h : ∀ text, request.text? texts = some text → (compile text).isRandom = false)
    (draws draws' : Draws) :
    request.fresh compile texts draws = request.fresh compile texts draws' := by
  have hevaluate (text : String) (hrandom : (compile text).isRandom = false) :=
    ofEvaluation_evaluateWith (Expression.faithful_bare (compile text))
      (Expression.faithful_bare (compile text)) rfl
      (.inr hrandom : draws = draws' ∨ (compile text).bare.isRandom = false)
  cases request with
  | interpret text => rfl
  | execute text arguments => exact hevaluate text (h text rfl) arguments none
  | clear => rfl
  | evaluate handle arguments tolerance =>
    rw [Request.fresh, Request.fresh]
    split
    · rfl
    · next text htext => exact hevaluate text (h text htext) arguments tolerance

/-- Caching is invisible. Whatever a client has asked before, in any order, the answer to a request
is that of the text compiled afresh and evaluated once with nothing kept, for the same numbers
drawn, and for all numbers if the expression calls no random function. Every expression that is
held finds, for all types and tolerances, the program that its tree would be lowered to, and no
program where the lowering fails. -/
theorem serve_eq_fresh {compile : String → Expression}
    (hcompile : ∀ text, (compile text).Obtained) (history : List (Draws × Request))
    (draws : Draws) (request : Request) :
    let session := run { engine := { compile } } history
    let texts := handedTexts history
    (session.serve draws request).1 = request.fresh compile texts draws ∧
      ((∀ text, request.text? texts = some text → (compile text).isRandom = false) →
        ∀ draws', (session.serve draws request).1 = request.fresh compile texts draws') ∧
      ∀ (slot : Nat) held e, session.engine.slots[slot]? = some held → held.expression = some e →
        e.body = (compile held.text).body ∧ ∀ body, e.body = some body → ∀ types tolerance,
          (e.program body types tolerance).map Prod.fst =
            Expression.lower body types (body.heeded? tolerance) := by
  have hsession := (consistent_start compile).run hcompile history
  rw [List.nil_append] at hsession
  obtain ⟨hanswer, -⟩ := hsession.serve hcompile draws request
  refine ⟨hanswer, fun hrandom draws' => hanswer.trans (fresh_draws compile hrandom draws draws'),
    fun slot held e hheld he => ?_⟩
  obtain ⟨hbare, hfaithful⟩ := hsession.engine.slots slot held e hheld he
  exact ⟨Expression.body_eq_of_bare hbare, fun body hbody types tolerance =>
    hfaithful.map_fst_program hbody types tolerance⟩

/-- The comparison of two numbers. -/
def numbersEqual : Body where
  root := Node.undetermined (.binary (.compare .eq)) [.parameter 0, .parameter 1]
  params := [⟨"x", TypeMask.of .numeric⟩, ⟨"y", TypeMask.of .numeric⟩]

/-- Numbers that agree within a tolerance are still told apart without one afterwards. -/
theorem serve_eq_fresh_comparison :
    let compile (text : String) :=
      Expression.ofOutcome Registry.empty text (.ok (numbersEqual.root, numbersEqual.params))
    let asked := Request.evaluate 0 (.inOrder [.numeric 5, .numeric 5.25])
    let history : List (Draws × Request) := [(fun _ => 0, .interpret "x=y"),
      (fun _ => 1, asked (some { range := some (0.5, 0.5) }))]
    (∀ text, (compile text).Obtained) ∧
      (∀ text, (asked none).text? (handedTexts history) = some text →
        (compile text).isRandom = false) ∧
      ((run { engine := { compile } } history).serve (fun _ => 2) (asked none)).1 =
        .evaluation (.ok (.boolean false)) (.boolean false) := by
  intro compile asked history
  have hobtained (text : String) : (compile text).Obtained := .ofOutcome ..
  have hrandom (text : String) (_ : (asked none).text? (handedTexts history) = some text) :
      (compile text).isRandom = false :=
    (by decide : numbersEqual.root.isRandom = false)
  refine ⟨hobtained, hrandom, ?_⟩
  rw [(serve_eq_fresh hobtained history (fun _ => 2) (asked none)).2.1 hrandom fun _ => 0]
  obtain ⟨lowering, hlower⟩ : ∃ lowering, Expression.lower numbersEqual [.numeric, .numeric]
      (numbersEqual.heeded? none) = .ok lowering := ⟨_, rfl⟩
  obtain ⟨isNew, kept, hprogram, hkept, -⟩ :=
    (Expression.faithful_bare (compile "x=y")).program_ok rfl hlower
  have hrun : lowering.program.run Registry.empty (fun _ => 0) [.numeric 5, .numeric 5.25] =
      .ok (.boolean false) := by
    obtain rfl := Except.ok.inj hlower
    decide
  have hcoerce : Expression.coerceAll Registry.empty numbersEqual.params
      [.numeric 5, .numeric 5.25] = .ok [.numeric 5, .numeric 5.25] := by decide
  have hbody : (compile "x=y").bare.body = some numbersEqual := rfl
  have houtcome : ((compile "x=y").bare.evaluate (fun _ => 0) [.numeric 5, .numeric 5.25]
      none).outcome = .ok (.boolean false) := by
    have hregistry : kept.registry = Registry.empty := Expression.registry_eq_of_bare hkept
    have hconstant : numbersEqual.constant? = none := rfl
    have hregistry' : (compile "x=y").bare.registry = Registry.empty := rfl
    have hlength : [Value.numeric 5, .numeric 5.25].length = numbersEqual.params.length := rfl
    have htypes : [Value.numeric 5, .numeric 5.25].map Value.type = [.numeric, .numeric] := rfl
    simp only [Expression.evaluate, hbody, hlength, ne_eq, not_true_eq_false, if_false, hconstant,
      hregistry', hcoerce, htypes, hprogram, Expression.runProgram, hregistry, hrun]
  change Answer.ofEvaluation ((compile "x=y").bare.evaluate (fun _ => 0)
    [.numeric 5, .numeric 5.25] none) = _
  rw [Answer.ofEvaluation, Expression.Evaluation.value, houtcome]

end Session

end Engine

end Formula
