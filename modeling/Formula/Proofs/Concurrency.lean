import Mathlib.Data.Finset.Card
import Formula.Proofs.Caching

/-!
# Concurrent requests share a compilation

Several threads ask one engine for expressions. A request has two steps, and each is atomic: it looks
up the slot of its text, and it is answered with the expression in that slot, which is compiled if the
slot is empty. Between the two steps of a request anything may happen, also that all texts are
forgotten: a thread keeps the slot that it has looked up.

What carries the results is the bookkeeping over the slots. A slot belongs to one text for ever and is
filled at most once, by a compilation of that text. A new slot for a text is made only if the text has
none, which is so at the start and after the engine has forgotten all texts; so there is at most one
slot for a text more than there were occasions on which everything was forgotten.

## Main definitions

* `Engine.Event`, `Engine.Service`: what can be seen, and the engine with the requests in flight.
* `Engine.Service.Step`, `Engine.Service.Run`: one atomic step, and all interleavings of such steps.
* `Engine.Service.Accounts`: the invariant.

## Main results

* `Engine.Service.Accounts.step`: every step keeps the invariant.
* `Engine.Service.Run.compiles_once`: how often texts are compiled, and who gets what.
-/

namespace Formula.Engine

/-! ### The two steps of a request -/

theorem reserve_cases (engine : Engine) (text : String) :
    (∃ slot, engine.cache.lookup text = some slot ∧ engine.reserve text = (slot, engine)) ∨
      (engine.cache.lookup text = none ∧ engine.reserve text = (engine.slots.size, { engine with
        cache := (text, engine.slots.size) :: engine.cache
        slots := engine.slots.push { text } })) := by
  rw [reserve]
  split
  · next slot hslot => exact .inl ⟨slot, hslot, rfl⟩
  · next hnone => exact .inr ⟨hnone, rfl⟩

theorem fill_cases {engine : Engine} {slot : Nat} {text : String} (h : engine.Holds slot text) :
    (∃ e, engine.slots[slot]? = some ⟨text, some e⟩ ∧ engine.fill slot text = (e, engine)) ∨
      (engine.slots[slot]? = some ⟨text, none⟩ ∧
        engine.fill slot text = (engine.compile text, { engine with
          slots := engine.slots.setIfInBounds slot ⟨text, some (engine.compile text)⟩
          compiles := engine.compiles + 1 })) := by
  obtain ⟨⟨_, _ | e⟩, hheld, rfl⟩ := h
  · refine .inr ⟨hheld, ?_⟩
    rw [fill, hheld]
    rfl
  · refine .inl ⟨e, hheld, ?_⟩
    rw [fill, hheld]
    rfl

/-! ### Threads -/

variable {ι : Type}

/-- What can be seen of the requests of threads. -/
inductive Event (ι : Type) where
  /-- A thread asks for a text and gets its slot. -/
  | lookUp (thread : ι) (text : String) (slot : Nat)
  /-- A thread gets the expression in the slot of its text, which may be compiled for it. -/
  | answer (thread : ι) (text : String) (slot : Nat) (e : Expression) (compiled : Bool)
  /-- All texts are forgotten. -/
  | clear

namespace Event

/-- Whether all texts are forgotten. -/
def isClear : Event ι → Bool
  | clear => true
  | _ => false

/-- The text that is compiled. -/
def compiled? : Event ι → Option String
  | answer _ text _ _ true => some text
  | _ => none

/-- The text that is looked up. -/
def lookedUp? : Event ι → Option String
  | lookUp _ text _ => some text
  | _ => none

end Event

/-- How often all texts were forgotten. -/
def clears (trace : List (Event ι)) : Nat :=
  trace.countP Event.isClear

/-- How often a text was compiled. -/
def compilations (text : String) (trace : List (Event ι)) : Nat :=
  trace.countP fun event => event.compiled? == some text

/-- The texts looked up since all texts were forgotten, the last one first. -/
def recentTexts (trace : List (Event ι)) : List String :=
  (trace.reverse.takeWhile fun event => !event.isClear).filterMap Event.lookedUp?

@[simp]
theorem clears_append (trace : List (Event ι)) (event : Event ι) :
    clears (trace ++ [event]) = clears trace + if event.isClear then 1 else 0 := by
  rw [clears, List.countP_append, List.countP_singleton, clears]

@[simp]
theorem compilations_append (text : String) (trace : List (Event ι)) (event : Event ι) :
    compilations text (trace ++ [event]) =
      compilations text trace + if event.compiled? = some text then 1 else 0 := by
  rw [compilations, List.countP_append, List.countP_singleton, compilations]
  simp

@[simp]
theorem recentTexts_append (trace : List (Event ι)) (event : Event ι) :
    recentTexts (trace ++ [event]) =
      if event.isClear then [] else event.lookedUp?.toList ++ recentTexts trace := by
  rw [recentTexts, List.reverse_append, List.reverse_singleton, List.singleton_append,
    List.takeWhile_cons]
  cases event <;> rfl

/-- An engine, and the text and the slot of each request in flight. -/
structure Service (ι : Type) where
  engine : Engine
  pending : ι → Option (String × Nat)

namespace Service

/-- One atomic step. -/
inductive Step [DecidableEq ι] : Service ι → Event ι → Service ι → Prop
  | lookUp {service : Service ι} (thread : ι) (text : String)
      (hidle : service.pending thread = none) :
      Step service (.lookUp thread text (service.engine.reserve text).1)
        { engine := (service.engine.reserve text).2
          pending := Function.update service.pending thread
            (some (text, (service.engine.reserve text).1)) }
  | answer {service : Service ι} (thread : ι) {text : String} {slot : Nat}
      (hpending : service.pending thread = some (text, slot)) :
      Step service
        (.answer thread text slot (service.engine.fill slot text).1
          (service.engine.slots[slot]?.bind Slot.expression).isNone)
        { engine := (service.engine.fill slot text).2
          pending := Function.update service.pending thread none }
  | clear (service : Service ι) : Step service .clear { service with engine := service.engine.clear }

/-- The steps of any threads, from an engine that knows no text. -/
inductive Run [DecidableEq ι] (compile : String → Expression) : List (Event ι) → Service ι → Prop
  | start : Run compile [] { engine := { compile }, pending := fun _ => none }
  | step {trace : List (Event ι)} {service service' : Service ι} {event : Event ι}
      (h : Run compile trace service) (hstep : Step service event service') :
      Run compile (trace ++ [event]) service'

/-! ### The bookkeeping -/

/-- What holds of the engine and the requests in flight after any steps. -/
structure Accounts (compile : String → Expression) (trace : List (Event ι))
    (service : Service ι) : Prop where
  compile_eq : service.engine.compile = compile
  /-- No text is known twice. -/
  distinct : (service.engine.cache.map Prod.fst).Nodup
  /-- A text is known if it was looked up since all texts were forgotten. -/
  known : ∀ text, text ∈ service.engine.cache.map Prod.fst ↔ text ∈ recentTexts trace
  cached : ∀ text slot, service.engine.cache.lookup text = some slot →
    service.engine.Holds slot text
  pending : ∀ thread text slot, service.pending thread = some (text, slot) →
    service.engine.Holds slot text
  /-- What was answered stays in its slot. -/
  answered : ∀ thread text slot e compiled, .answer thread text slot e compiled ∈ trace →
    service.engine.slots[slot]? = some ⟨text, some e⟩
  /-- What is in a slot was compiled for it. -/
  compiled : ∀ (slot : Nat) text e, service.engine.slots[slot]? = some ⟨text, some e⟩ →
    e = compile text ∧ ∃ thread, .answer thread text slot e true ∈ trace
  /-- A text was compiled once for each of its slots that is filled. -/
  filled : ∀ text, compilations text trace =
    service.engine.slots.countP fun held => held.text == text && held.expression.isSome
  total : service.engine.compiles = (trace.filterMap Event.compiled?).length
  /-- A text gets a new slot only if it is not known. -/
  reserved : ∀ text, (service.engine.slots.countP fun held => held.text == text) ≤
    clears trace + if (service.engine.cache.lookup text).isSome then 1 else 0
  /-- As long as nothing is forgotten, every slot is that of its text. -/
  sole : clears trace = 0 → ∀ (slot : Nat) held, service.engine.slots[slot]? = some held →
    service.engine.cache.lookup held.text = some slot

theorem accounts_start (compile : String → Expression) :
    Accounts (ι := ι) compile [] { engine := { compile }, pending := fun _ => none } where
  compile_eq := rfl
  distinct := List.nodup_nil
  known text := by simp [recentTexts]
  cached := by simp
  pending := by simp
  answered := by simp
  compiled := by simp
  filled text := by simp [compilations]
  total := rfl
  reserved text := by simp [clears]
  sole := by simp

namespace Accounts

variable {compile : String → Expression} {trace : List (Event ι)} {service : Service ι}

/-- All texts are forgotten: no slot changes. -/
theorem clear (h : Accounts compile trace service) :
    Accounts compile (trace ++ [.clear]) { service with engine := service.engine.clear } where
  compile_eq := h.compile_eq
  distinct := List.nodup_nil
  known text := by
    rw [recentTexts_append]
    exact Iff.rfl
  cached := by simp [Engine.clear]
  pending := h.pending
  answered thread text slot e compiled hmem :=
    h.answered thread text slot e compiled (by simpa using hmem)
  compiled slot text e hheld := by
    obtain ⟨he, thread, hmem⟩ := h.compiled slot text e hheld
    exact ⟨he, thread, List.mem_append_left _ hmem⟩
  filled text := by
    rw [compilations_append, h.filled]
    rfl
  total := by
    rw [List.filterMap_append, List.length_append]
    exact h.total
  reserved text := by
    -- the slot that the text may have had is one of the slots of before
    have hreserved := h.reserved text
    rw [clears_append]
    change service.engine.slots.countP _ ≤ clears trace + 1 + 0
    split at hreserved <;> omega
  sole hclears := by simp [Event.isClear] at hclears

theorem mem_cache_of_lookup {engine : Engine} {text : String} {slot : Nat}
    (h : engine.cache.lookup text = some slot) : text ∈ engine.cache.map Prod.fst := by
  obtain ⟨before, rest, heq, -⟩ := List.lookup_eq_some_iff.mp h
  rw [heq]
  simp

variable [DecidableEq ι]

/-- The slot of a request in flight is one of its text, also if there is one more request. -/
theorem holds_update {pending : ι → Option (String × Nat)} {engine : Engine}
    (h : ∀ thread text slot, pending thread = some (text, slot) → engine.Holds slot text)
    (thread : ι) {request : Option (String × Nat)}
    (hrequest : ∀ text slot, request = some (text, slot) → engine.Holds slot text) :
    ∀ thread' text slot, Function.update pending thread request thread' = some (text, slot) →
      engine.Holds slot text := by
  intro thread' text slot hpending
  by_cases hthread : thread' = thread
  · rw [hthread, Function.update_self] at hpending
    exact hrequest text slot hpending
  · rw [Function.update_of_ne hthread] at hpending
    exact h thread' text slot hpending

/-- A text that is known is looked up: no slot changes. -/
theorem lookUp_known (h : Accounts compile trace service) (thread : ι) {text : String} {slot : Nat}
    (hslot : service.engine.cache.lookup text = some slot) :
    Accounts compile (trace ++ [.lookUp thread text slot])
      { service with pending := Function.update service.pending thread (some (text, slot)) } where
  compile_eq := h.compile_eq
  distinct := h.distinct
  known text' := by
    rw [recentTexts_append]
    change _ ↔ text' ∈ text :: recentTexts trace
    rw [List.mem_cons, ← h.known]
    constructor
    · exact .inr
    · rintro (rfl | hmem)
      · exact mem_cache_of_lookup hslot
      · exact hmem
  cached := h.cached
  pending := holds_update h.pending thread (by
    rintro _ _ ⟨⟩
    exact h.cached text slot hslot)
  answered thread' text' slot' e compiled hmem :=
    h.answered thread' text' slot' e compiled (by simpa using hmem)
  compiled slot' text' e hheld := by
    obtain ⟨he, thread', hmem⟩ := h.compiled slot' text' e hheld
    exact ⟨he, thread', List.mem_append_left _ hmem⟩
  filled text' := by simpa [Event.compiled?] using h.filled text'
  total := by
    rw [List.filterMap_append, List.length_append]
    exact h.total
  reserved text' := by simpa [Event.isClear] using h.reserved text'
  sole hclears := h.sole (by simpa [Event.isClear] using hclears)

/-- A text that is not known gets a slot of its own. -/
theorem lookUp_new (h : Accounts compile trace service) (thread : ι) {text : String}
    (hnew : service.engine.cache.lookup text = none) :
    Accounts compile (trace ++ [.lookUp thread text service.engine.slots.size])
      { engine := { service.engine with
          cache := (text, service.engine.slots.size) :: service.engine.cache
          slots := service.engine.slots.push { text } }
        pending := Function.update service.pending thread
          (some (text, service.engine.slots.size)) } := by
  have hkept {slot : Nat} {held : Slot} (hheld : service.engine.slots[slot]? = some held) :
      (service.engine.slots.push { text })[slot]? = some held := by
    obtain ⟨hlt, rfl⟩ := Array.getElem?_eq_some_iff.mp hheld
    rw [Array.getElem?_push_lt hlt]
  have hholds {slot : Nat} {text' : String} (hslot : service.engine.Holds slot text') :
      Engine.Holds { service.engine with
        cache := (text, service.engine.slots.size) :: service.engine.cache
        slots := service.engine.slots.push { text } } slot text' := by
    obtain ⟨held, hheld, htext⟩ := hslot
    exact ⟨held, hkept hheld, htext⟩
  have hfresh : Engine.Holds { service.engine with
      cache := (text, service.engine.slots.size) :: service.engine.cache
      slots := service.engine.slots.push { text } } service.engine.slots.size text :=
    ⟨{ text }, Array.getElem?_push_size, rfl⟩
  have hnot : text ∉ service.engine.cache.map Prod.fst := by
    intro hmem
    obtain ⟨entry, hentry, heq⟩ := List.mem_map.mp hmem
    exact absurd (List.lookup_eq_none_iff.mp hnew entry hentry) (by simp [heq])
  have hlookup (text' : String) :
      ((text, service.engine.slots.size) :: service.engine.cache).lookup text' =
        if text' = text then some service.engine.slots.size
        else service.engine.cache.lookup text' := by
    by_cases heq : text' = text
    · rw [if_pos heq, heq, List.lookup_cons_self]
    · rw [if_neg heq, List.lookup_cons, beq_false_of_ne heq]
  refine ⟨h.compile_eq, List.nodup_cons.mpr ⟨hnot, h.distinct⟩, fun text' => ?_,
    fun text' slot hslot => ?_, ?_, fun thread' text' slot e compiled hmem => ?_,
    fun slot text' e hheld => ?_, fun text' => ?_, ?_, fun text' => ?_,
    fun hclears slot held hheld => ?_⟩
  · rw [recentTexts_append]
    change text' ∈ text :: service.engine.cache.map Prod.fst ↔ text' ∈ text :: recentTexts trace
    rw [List.mem_cons, List.mem_cons, h.known]
  · rw [hlookup] at hslot
    split at hslot
    · next heq =>
      obtain rfl := Option.some.inj hslot
      exact heq ▸ hfresh
    · exact hholds (h.cached text' slot hslot)
  · exact holds_update (fun thread' text' slot hpending =>
      hholds (h.pending thread' text' slot hpending)) thread (by
        rintro _ _ ⟨⟩
        exact hfresh)
  · exact hkept (h.answered thread' text' slot e compiled (by simpa using hmem))
  · rw [Array.getElem?_push] at hheld
    split at hheld
    · cases hheld
    · obtain ⟨he, thread', hmem⟩ := h.compiled slot text' e hheld
      exact ⟨he, thread', List.mem_append_left _ hmem⟩
  · rw [compilations_append, h.filled, Array.countP_push]
    simp [Event.compiled?]
  · rw [List.filterMap_append, List.length_append]
    exact h.total
  · have hreserved := h.reserved text'
    rw [clears_append, Array.countP_push, hlookup]
    by_cases heq : text' = text
    · subst heq
      rw [hnew] at hreserved
      simpa [Event.isClear] using hreserved
    · rw [if_neg heq, if_neg (by simpa using Ne.symm heq)]
      exact hreserved
  · rw [hlookup]
    rw [Array.getElem?_push] at hheld
    split at hheld
    · next hslot =>
      obtain rfl := Option.some.inj hheld
      rw [if_pos rfl, hslot]
    · have hsole := h.sole (by simpa [Event.isClear] using hclears) slot held hheld
      rw [if_neg, hsole]
      intro heq
      rw [heq, hnew] at hsole
      cases hsole

/-- A request whose slot is filled is answered: no slot changes. -/
theorem answer_filled (h : Accounts compile trace service) (thread : ι) {text : String} {slot : Nat}
    {e : Expression} (hheld : service.engine.slots[slot]? = some ⟨text, some e⟩) :
    Accounts compile (trace ++ [.answer thread text slot e false])
      { service with pending := Function.update service.pending thread none } where
  compile_eq := h.compile_eq
  distinct := h.distinct
  known text' := by
    rw [recentTexts_append]
    exact h.known text'
  cached := h.cached
  pending := holds_update h.pending thread (by simp)
  answered thread' text' slot' e' compiled hmem := by
    rcases List.mem_append.mp hmem with hmem | hmem
    · exact h.answered thread' text' slot' e' compiled hmem
    · cases List.mem_singleton.mp hmem
      exact hheld
  compiled slot' text' e' hheld' := by
    obtain ⟨he, thread', hmem⟩ := h.compiled slot' text' e' hheld'
    exact ⟨he, thread', List.mem_append_left _ hmem⟩
  filled text' := by simpa [Event.compiled?] using h.filled text'
  total := by
    rw [List.filterMap_append, List.length_append]
    exact h.total
  reserved text' := by simpa [Event.isClear] using h.reserved text'
  sole hclears := h.sole (by simpa [Event.isClear] using hclears)

/-- A request whose slot is empty is answered: the text is compiled, and the slot is filled. -/
theorem answer_empty (h : Accounts compile trace service) (thread : ι) {text : String} {slot : Nat}
    (hheld : service.engine.slots[slot]? = some ⟨text, none⟩) :
    Accounts compile (trace ++ [.answer thread text slot (compile text) true])
      { engine := { service.engine with
          slots := service.engine.slots.setIfInBounds slot ⟨text, some (compile text)⟩
          compiles := service.engine.compiles + 1 }
        pending := Function.update service.pending thread none } := by
  obtain ⟨hlt, hget⟩ := Array.getElem?_eq_some_iff.mp hheld
  have hslots (i : Nat) :
      (service.engine.slots.setIfInBounds slot ⟨text, some (compile text)⟩)[i]? =
        if i = slot then some ⟨text, some (compile text)⟩ else service.engine.slots[i]? := by
    simp [Array.getElem?_setIfInBounds, hlt, eq_comm]
  have hcount (p : Slot → Bool) :
      (service.engine.slots.setIfInBounds slot ⟨text, some (compile text)⟩).countP p =
        (service.engine.slots.countP p - if p ⟨text, none⟩ then 1 else 0) +
          if p ⟨text, some (compile text)⟩ then 1 else 0 := by
    rw [Array.setIfInBounds, dif_pos hlt, Array.countP_set, hget]
  have hpos {p : Slot → Bool} (hp : p ⟨text, none⟩ = true) : 0 < service.engine.slots.countP p :=
    Array.countP_pos_iff.mpr ⟨_, Array.mem_of_getElem? hheld, hp⟩
  have hholds {slot' : Nat} {text' : String} (hslot : service.engine.Holds slot' text') :
      Engine.Holds { service.engine with
        slots := service.engine.slots.setIfInBounds slot ⟨text, some (compile text)⟩
        compiles := service.engine.compiles + 1 } slot' text' := by
    obtain ⟨held, hheld', htext⟩ := hslot
    by_cases hi : slot' = slot
    · subst hi
      obtain rfl := Option.some.inj (hheld.symm.trans hheld')
      exact ⟨⟨text, some (compile text)⟩, by rw [hslots, if_pos rfl], htext⟩
    · exact ⟨held, by rw [hslots, if_neg hi, hheld'], htext⟩
  refine ⟨h.compile_eq, h.distinct, fun text' => ?_, fun text' slot' hslot => ?_, ?_,
    fun thread' text' slot' e compiled hmem => ?_, fun slot' text' e hheld' => ?_, fun text' => ?_,
    ?_, fun text' => ?_, fun hclears slot' held hheld' => ?_⟩
  · rw [recentTexts_append]
    exact h.known text'
  · exact hholds (h.cached text' slot' hslot)
  · exact holds_update (fun thread' text' slot' hpending =>
      hholds (h.pending thread' text' slot' hpending)) thread (by simp)
  · rw [hslots]
    rcases List.mem_append.mp hmem with hmem | hmem
    · -- the slot was empty, so no answer came from it
      have hanswered := h.answered thread' text' slot' e compiled hmem
      rw [if_neg, hanswered]
      rintro rfl
      rw [hheld] at hanswered
      cases hanswered
    · cases List.mem_singleton.mp hmem
      rw [if_pos rfl]
  · rw [hslots] at hheld'
    split at hheld'
    · next hi =>
      cases hheld'
      exact ⟨rfl, thread, by rw [hi]; simp⟩
    · obtain ⟨he, thread', hmem⟩ := h.compiled slot' text' e hheld'
      exact ⟨he, thread', List.mem_append_left _ hmem⟩
  · rw [compilations_append, h.filled, hcount]
    simp [Event.compiled?]
  · simpa [Event.compiled?] using h.total
  · have hreserved := h.reserved text'
    rw [clears_append, hcount]
    by_cases heq : (text == text') = true
    · have := hpos (p := fun held => held.text == text') heq
      simp only [heq, if_true]
      rw [Nat.sub_add_cancel this]
      exact hreserved
    · simp only [heq]
      exact hreserved
  · have hclears : clears trace = 0 := by simpa [Event.isClear] using hclears
    rw [hslots] at hheld'
    split at hheld'
    · next hi =>
      obtain rfl := Option.some.inj hheld'
      exact hi ▸ h.sole hclears slot _ hheld
    · exact h.sole hclears slot' held hheld'

/-- Every step keeps the invariant. -/
theorem step (h : Accounts compile trace service) {event : Event ι} {service' : Service ι}
    (hstep : Step service event service') : Accounts compile (trace ++ [event]) service' := by
  cases hstep with
  | lookUp thread text hidle =>
    rcases service.engine.reserve_cases text with ⟨slot, hslot, heq⟩ | ⟨hnew, heq⟩
    · rw [heq]
      exact h.lookUp_known thread hslot
    · rw [heq]
      exact h.lookUp_new thread hnew
  | @answer thread text slot hpending =>
    rcases fill_cases (h.pending thread text slot hpending) with ⟨e, hheld, heq⟩ | ⟨hheld, heq⟩
    · rw [heq, hheld]
      exact h.answer_filled thread hheld
    · have hanswer := h.answer_empty thread hheld
      rw [← h.compile_eq] at hanswer ⊢
      rw [heq, hheld]
      exact hanswer
  | clear => exact h.clear

end Accounts

theorem Run.accounts [DecidableEq ι] {compile : String → Expression} {trace : List (Event ι)}
    {service : Service ι} (h : Run compile trace service) : Accounts compile trace service := by
  induction h with
  | start => exact accounts_start compile
  | step _ hstep ih => exact ih.step hstep

/-- A request whose two steps follow one another is served as a whole. -/
theorem Step.interpret [DecidableEq ι] {service : Service ι} {thread : ι} (text : String)
    (hidle : service.pending thread = none) :
    ∃ service' compiled,
      Step service (.lookUp thread text (service.engine.interpret text).1) service' ∧
      Step service' (.answer thread text (service.engine.interpret text).1
        (service.engine.interpret text).2.1 compiled)
        { engine := (service.engine.interpret text).2.2, pending := service.pending } := by
  let service' : Service ι :=
    { engine := (service.engine.reserve text).2
      pending := Function.update service.pending thread
        (some (text, (service.engine.reserve text).1)) }
  have hanswer : Step service' _ _ := .answer thread (Function.update_self ..)
  have hpending : Function.update service'.pending thread none = service.pending := by
    rw [Function.update_idem, Function.update_eq_self_iff.mpr hidle.symm]
  rw [hpending] at hanswer
  exact ⟨service', _, .lookUp thread text hidle, hanswer⟩

/-- Concurrent requests share a compilation. Whatever the interleaving of the steps of any threads: a
text is compiled at most once more often than all texts were forgotten, and these are all compilations
that the engine counts; an expression that was given
out was compiled from the text that was asked for, and so were all others from the same slot; as long
as nothing was forgotten, all requests for a text were given the same expression in the same slot; and
the texts known are those looked up since all texts were forgotten. -/
theorem Run.compiles_once [DecidableEq ι] {compile : String → Expression} {trace : List (Event ι)}
    {service : Service ι} (h : Run compile trace service) :
    (∀ text, compilations text trace ≤ clears trace + 1) ∧
    service.engine.compiles = (trace.filterMap Event.compiled?).length ∧
    (∀ thread text slot e compiled, Event.answer thread text slot e compiled ∈ trace →
      e = compile text ∧ (∃ thread', Event.answer thread' text slot e true ∈ trace) ∧
        ∀ thread' text' e' compiled', Event.answer thread' text' slot e' compiled' ∈ trace →
          text' = text ∧ e' = e) ∧
    (clears trace = 0 → ∀ thread thread' text slot slot' e e' compiled compiled',
      Event.answer thread text slot e compiled ∈ trace →
      Event.answer thread' text slot' e' compiled' ∈ trace → slot = slot' ∧ e = e') ∧
    service.engine.cached = (recentTexts trace).toFinset.card := by
  have haccounts := h.accounts
  refine ⟨fun text => ?_, haccounts.total, fun thread text slot e compiled hmem => ?_,
    fun hclears thread thread' text slot slot' e e' compiled compiled' hmem hmem' => ?_, ?_⟩
  · calc
      compilations text trace = _ := haccounts.filled text
      _ ≤ service.engine.slots.countP fun held => held.text == text :=
        Array.countP_mono_left fun held _ hheld => (Bool.and_eq_true_iff.mp hheld).1
      _ ≤ _ := haccounts.reserved text
      _ ≤ clears trace + 1 := Nat.add_le_add_left (by split <;> simp) _
  · have hheld := haccounts.answered thread text slot e compiled hmem
    obtain ⟨he, hcompiled⟩ := haccounts.compiled slot text e hheld
    refine ⟨he, hcompiled, fun thread' text' e' compiled' hmem' => ?_⟩
    cases hheld.symm.trans (haccounts.answered thread' text' slot e' compiled' hmem')
    exact ⟨rfl, rfl⟩
  · have hheld := haccounts.answered thread text slot e compiled hmem
    have hheld' := haccounts.answered thread' text slot' e' compiled' hmem'
    have hsole := haccounts.sole hclears slot _ hheld
    have hsole' := haccounts.sole hclears slot' _ hheld'
    obtain rfl : slot = slot' := Option.some.inj (hsole.symm.trans hsole')
    cases hheld.symm.trans hheld'
    exact ⟨rfl, rfl⟩
  · have hset : (recentTexts trace).toFinset = (service.engine.cache.map Prod.fst).toFinset := by
      ext text
      rw [List.mem_toFinset, List.mem_toFinset, haccounts.known]
    rw [hset, List.toFinset_card_of_nodup haccounts.distinct, List.length_map, cached]

/-- Two threads ask for one text at the same time: it is compiled once, and both get the same. -/
theorem Run.compiles_once_race :
    ∃ (trace : List (Event Bool)) (service : Service Bool) (slot slot' : Nat)
      (e e' : Expression) (compiled compiled' : Bool),
      Run (Compiler.common .mathematical).expression trace service ∧
      Event.answer true "x + 1" slot e compiled ∈ trace ∧
      Event.answer false "x + 1" slot' e' compiled' ∈ trace ∧
      compilations "x + 1" trace ≤ 1 ∧ slot = slot' ∧ e = e' ∧
      service.engine.cached = (recentTexts trace).toFinset.card := by
  obtain ⟨trace, service, slot, slot', e, e', compiled, compiled', hrun, hmem, hmem', hclears⟩ :
      ∃ (trace : List (Event Bool)) (service : Service Bool) (slot slot' : Nat)
        (e e' : Expression) (compiled compiled' : Bool),
        Run (Compiler.common .mathematical).expression trace service ∧
        Event.answer true "x + 1" slot e compiled ∈ trace ∧
        Event.answer false "x + 1" slot' e' compiled' ∈ trace ∧ clears trace = 0 :=
    ⟨_, _, _, _, _, _, _, _, .step (.step (.step (.step .start (.lookUp true "x + 1" rfl))
      (.lookUp false "x + 1" rfl)) (.answer true rfl)) (.answer false rfl),
      List.mem_append_left _ (List.mem_append_right _ (List.mem_singleton_self _)),
      List.mem_append_right _ (List.mem_singleton_self _), rfl⟩
  obtain ⟨hcount, -, -, hsame, hcached⟩ := hrun.compiles_once
  obtain ⟨hslot, he⟩ := hsame hclears _ _ _ _ _ _ _ _ _ hmem hmem'
  have hcount := hcount "x + 1"
  rw [hclears] at hcount
  exact ⟨trace, service, slot, slot', e, e', compiled, compiled', hrun, hmem, hmem', hcount, hslot,
    he, hcached⟩

end Service

end Formula.Engine
