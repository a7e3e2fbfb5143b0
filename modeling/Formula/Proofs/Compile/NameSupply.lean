import Formula.Proofs.Source.Loops

/-!
# The supply of names

While a text is taken apart, names are asked for one after the other: for literals, for parts of the
text and for nothing in particular. However many have been given, the search for another one ends, and
the name it finds is new: it neither occurs in the source nor means anything. Equal literals share a
name and different ones do not, and what a name has once been given for it stands for from then on.

## Main definitions

* `NameRequest`, `NameSupply`: what names are asked for, and the tables with the names that have been
  given.
* `NameSupply.firstLiteral?`: the literal that was read first from a text.
* `NameSupply.Consistent`: the tables tell what has been given.

## Main results

* `NameSupply.Consistent.answer`: the tables stay consistent with every name that is given.
* `NameSupply.names_fresh`: all names are new, and those of literals are kept.
-/

namespace Formula

/-- What a name is asked for. -/
inductive NameRequest where
  /-- For nothing in particular. -/
  | fresh
  /-- For a literal with a value, read from a text. -/
  | literal (value : Value) (text : Text)
  /-- For a part of the text. -/
  | part (text : Text) (isCall : Bool)

/-- The tables, and the names that have been given. -/
structure NameSupply where
  ctx : Context
  /-- The requests, from the first one on, and the names that were given for them. -/
  given : List (NameRequest × Text) := []

/-- The names of the named constants. -/
def Constants.names : List Text :=
  named.map fun p => p.1.toList

namespace Context

/-- The number of the next name. -/
def nextNumber (ctx : Context) : Nat :=
  ctx.freshNumber ctx.takenBound ctx.counter

theorem lt_nextNumber (ctx : Context) : ctx.counter < ctx.nextNumber :=
  ctx.lt_freshNumber ..

theorem contains_nextNumber (ctx : Context) :
    Text.contains (generatedName ctx.nextNumber) ctx.source = false :=
  (Bool.or_eq_false_iff.mp ctx.freshName_free).1

theorem isKnown_nextNumber (ctx : Context) : ctx.isKnown (generatedName ctx.nextNumber) = false :=
  (Bool.or_eq_false_iff.mp ctx.freshName_free).2

theorem constant?_nextNumber (ctx : Context) :
    ctx.constant? (generatedName ctx.nextNumber) = none := by
  have h := ctx.isKnown_nextNumber
  simp only [isKnown, Bool.or_eq_false_iff] at h
  exact Option.isNone_iff_eq_none.mp (Option.isSome_eq_false_iff.mp h.1.1)

theorem symbol?_nextNumber (ctx : Context) :
    ctx.symbol? (generatedName ctx.nextNumber) = none := by
  have h := ctx.isKnown_nextNumber
  simp only [isKnown, Bool.or_eq_false_iff] at h
  exact Option.isNone_iff_eq_none.mp (Option.isSome_eq_false_iff.mp h.1.2)

theorem ne_of_mem_params (ctx : Context) {p : Parameter} (hp : p ∈ ctx.params) :
    p.name.toList ≠ generatedName ctx.nextNumber := by
  have h := ctx.isKnown_nextNumber
  simp only [isKnown, Bool.or_eq_false_iff, parameterIndex?, List.findIdx?_isSome,
    List.any_eq_false] at h
  exact fun heq => h.2 p hp (beq_iff_eq.mpr heq)

theorem lookup_constants_of_constant? {ctx : Context} {key : Text} (h : ctx.constant? key = none) :
    ctx.constants.lookup key = none :=
  (Option.or_eq_none_iff.mp h).1

end Context

namespace NameSupply

/-- Gives a name. -/
def answer (s : NameSupply) (request : NameRequest) : NameSupply :=
  let named := match request with
    | .fresh => s.ctx.freshName
    | .literal value text => s.ctx.intern value text
    | .part text isCall => s.ctx.addSymbol text isCall
  { ctx := named.2, given := s.given ++ [(request, named.1)] }

/-- Gives names in turn. -/
def answerAll (s : NameSupply) (requests : List NameRequest) : NameSupply :=
  requests.foldl answer s

/-- The value and the name of the literal that was read first from a text. -/
def firstLiteral? (given : List (NameRequest × Text)) (text : Text) : Option (Value × Text) :=
  given.findSome? fun
    | (.literal value text', name) => if text' = text then some (value, name) else none
    | _ => none

/-- What is given later does not change which literal was read first. -/
theorem firstLiteral?_concat (given : List (NameRequest × Text)) (request : NameRequest)
    (name text : Text) :
    firstLiteral? (given ++ [(request, name)]) text =
      (firstLiteral? given text).or (firstLiteral? [(request, name)] text) :=
  List.findSome?_append

theorem firstLiteral?_literal (v : Value) (text name text' : Text) :
    firstLiteral? [(.literal v text, name)] text' =
      if text = text' then some (v, name) else none := by
  simp [firstLiteral?]

theorem mem_of_firstLiteral? {given : List (NameRequest × Text)} {text name : Text} {v : Value}
    (h : firstLiteral? given text = some (v, name)) : (.literal v text, name) ∈ given := by
  obtain ⟨⟨request, name'⟩, hmem, hfound⟩ := List.exists_of_findSome?_eq_some h
  cases request with
  | literal w text' =>
    rw [Option.ite_none_right_eq_some] at hfound
    obtain ⟨rfl, hfound⟩ := hfound
    obtain ⟨rfl, rfl⟩ := Prod.mk.inj (Option.some.inj hfound)
    exact hmem
  | fresh | part text' isCall => cases hfound

/-- The tables tell what has been given. Names are numbered up to the counter; a literal has the name
that was given for its text first, and the name has the value of that literal; and what else is a
constant is a named one. -/
structure Consistent (source : Text) (params : List Parameter) (s : NameSupply) : Prop where
  source : s.ctx.source = source
  params : s.ctx.params = params
  numbered : ∀ e ∈ s.given, ∃ n ≤ s.ctx.counter, e.2 = Context.generatedName n
  literals : ∀ text, s.ctx.literals.lookup text = (firstLiteral? s.given text).map Prod.snd
  constants : ∀ text v name, firstLiteral? s.given text = some (v, name) →
    s.ctx.constants.lookup name = some ⟨v, text⟩
  shared : ∀ v text name, (.literal v text, name) ∈ s.given →
    ∃ w, firstLiteral? s.given text = some (w, name)
  keys : ∀ key, (s.ctx.constants.lookup key).isSome →
    key ∈ Constants.names ∨ key ∈ s.given.map Prod.snd
  named : ∀ key ∈ Constants.names, (s.ctx.constants.lookup key).isSome

section

variable {source : Text} {params : List Parameter} {s : NameSupply}

theorem Consistent.not_mem_given (h : s.Consistent source params) :
    Context.generatedName s.ctx.nextNumber ∉ s.given.map Prod.snd := by
  rw [List.mem_map]
  rintro ⟨e, he, hname⟩
  obtain ⟨n, hn, heq⟩ := h.numbered e he
  obtain rfl := Context.generatedName_injective (heq.symm.trans hname)
  exact absurd s.ctx.lt_nextNumber (Nat.not_lt.mpr hn)

/-- With the next name, all names are numbered up to the counter. -/
theorem Consistent.numbered_next (h : s.Consistent source params) (request : NameRequest) :
    ∀ e ∈ s.given ++ [(request, Context.generatedName s.ctx.nextNumber)],
      ∃ n ≤ s.ctx.nextNumber, e.2 = Context.generatedName n := by
  intro e he
  rcases List.mem_append.mp he with he | he
  · obtain ⟨n, hn, hname⟩ := h.numbered e he
    exact ⟨n, hn.trans s.ctx.lt_nextNumber.le, hname⟩
  · obtain rfl := List.mem_singleton.mp he
    exact ⟨_, le_rfl, rfl⟩

/-- A key of the constants is one of them still when another name has been given. -/
theorem Consistent.keys_concat (h : s.Consistent source params) (e : NameRequest × Text) {key : Text}
    (hkey : (s.ctx.constants.lookup key).isSome) :
    key ∈ Constants.names ∨ key ∈ (s.given ++ [e]).map Prod.snd := by
  rw [List.map_append, List.mem_append]
  exact (h.keys key hkey).imp_right .inl

/-- A name that is given for no literal leaves the constants as they are. -/
theorem Consistent.given_new (h : s.Consistent source params) {request : NameRequest}
    (hrequest : ∀ v text, request ≠ .literal v text) (symbols : List (Text × Symbol)) :
    Consistent source params
      ⟨{ s.ctx with symbols, counter := s.ctx.nextNumber },
        s.given ++ [(request, Context.generatedName s.ctx.nextNumber)]⟩ := by
  have hfirst (text : Text) : firstLiteral?
      (s.given ++ [(request, Context.generatedName s.ctx.nextNumber)]) text =
        firstLiteral? s.given text := by
    rw [firstLiteral?_concat]
    cases request with
    | literal v text' => exact absurd rfl (hrequest v text')
    | fresh | part text' isCall => exact Option.or_none
  refine ⟨h.source, h.params, h.numbered_next request, fun text => ?_, fun text v name hname => ?_,
    fun v text name hmem => ?_, fun key => h.keys_concat _, h.named⟩
  · rw [hfirst]
    exact h.literals text
  · rw [hfirst] at hname
    exact h.constants text v name hname
  · rw [hfirst]
    rcases List.mem_append.mp hmem with hmem | hmem
    · exact h.shared v text name hmem
    · exact absurd (Prod.mk.inj (List.mem_singleton.mp hmem)).1.symm (hrequest v text)

/-- A literal whose text has been read before gets the name that the text has. -/
theorem Consistent.given_again (h : s.Consistent source params) {text name : Text}
    (hname : s.ctx.literals.lookup text = some name) (value : Value) :
    Consistent source params ⟨s.ctx, s.given ++ [(.literal value text, name)]⟩ := by
  obtain ⟨w, hread⟩ : ∃ w, firstLiteral? s.given text = some (w, name) := by
    obtain ⟨⟨w, name'⟩, hread, rfl⟩ := Option.map_eq_some_iff.mp ((h.literals text).symm.trans hname)
    exact ⟨w, hread⟩
  have hfirst (text' : Text) : firstLiteral? (s.given ++ [(.literal value text, name)]) text' =
      firstLiteral? s.given text' := by
    rw [firstLiteral?_concat, firstLiteral?_literal]
    split
    · next htext => rw [← htext, hread, Option.some_or]
    · exact Option.or_none
  refine ⟨h.source, h.params, fun e he => ?_, fun text' => ?_, fun text' v name' hname' => ?_,
    fun v text' name' hmem => ?_, fun key => h.keys_concat _, h.named⟩
  · rcases List.mem_append.mp he with he | he
    · exact h.numbered e he
    · obtain rfl := List.mem_singleton.mp he
      exact h.numbered (.literal w text, name) (mem_of_firstLiteral? hread)
  · rw [hfirst]
    exact h.literals text'
  · rw [hfirst] at hname'
    exact h.constants text' v name' hname'
  · rw [hfirst]
    rcases List.mem_append.mp hmem with hmem | hmem
    · exact h.shared v text' name' hmem
    · obtain ⟨hrequest, rfl⟩ := Prod.mk.inj (List.mem_singleton.mp hmem)
      obtain ⟨rfl, rfl⟩ := NameRequest.literal.inj hrequest
      exact ⟨w, hread⟩

/-- A literal whose text is new gets a name of its own. -/
theorem Consistent.given_literal (h : s.Consistent source params) {text : Text}
    (hnew : s.ctx.literals.lookup text = none) (value : Value) :
    Consistent source params
      ⟨{ s.ctx with
          counter := s.ctx.nextNumber
          constants := (Context.generatedName s.ctx.nextNumber, ⟨value, text⟩) :: s.ctx.constants
          literals := (text, Context.generatedName s.ctx.nextNumber) :: s.ctx.literals },
        s.given ++ [(.literal value text, Context.generatedName s.ctx.nextNumber)]⟩ := by
  have hnumbered := h.numbered_next (.literal value text)
  have hnot := h.not_mem_given
  generalize Context.generatedName s.ctx.nextNumber = name at hnumbered hnot ⊢
  have hnone : firstLiteral? s.given text = none :=
    Option.map_eq_none_iff.mp ((h.literals text).symm.trans hnew)
  have hfirst (text' : Text) : firstLiteral? (s.given ++ [(.literal value text, name)]) text' =
      if text = text' then some (value, name) else firstLiteral? s.given text' := by
    rw [firstLiteral?_concat, firstLiteral?_literal]
    split
    · next htext => rw [← htext, hnone, Option.none_or]
    · exact Option.or_none
  refine ⟨h.source, h.params, hnumbered, fun text' => ?_, fun text' v name' hread => ?_,
    fun v text' name' hmem => ?_, fun key hkey => ?_, fun key hkey => ?_⟩
  · rw [hfirst, List.lookup_cons]
    split
    · next htext => rw [if_pos (eq_of_beq htext).symm]; rfl
    · next htext =>
      rw [if_neg fun heq => beq_eq_false_iff_ne.mp htext heq.symm]
      exact h.literals text'
  · rw [hfirst] at hread
    split at hread
    · next htext =>
      obtain ⟨rfl, rfl⟩ := Prod.mk.inj (Option.some.inj hread)
      rw [List.lookup_cons_self, htext]
    · have hne : (name' == name) = false := beq_eq_false_iff_ne.mpr fun heq =>
        hnot (heq ▸ List.mem_map_of_mem (mem_of_firstLiteral? hread))
      rw [List.lookup_cons, hne]
      exact h.constants text' v name' hread
  · rw [hfirst]
    rcases List.mem_append.mp hmem with hmem | hmem
    · obtain ⟨w, hread⟩ := h.shared v text' name' hmem
      refine ⟨w, (if_neg ?_).trans hread⟩
      rintro rfl
      rw [hnone] at hread
      cases hread
    · obtain ⟨hrequest, rfl⟩ := Prod.mk.inj (List.mem_singleton.mp hmem)
      obtain ⟨rfl, rfl⟩ := NameRequest.literal.inj hrequest
      exact ⟨v, if_pos rfl⟩
  · rw [List.lookup_cons] at hkey
    split at hkey
    · next heq => exact .inr (by simp [eq_of_beq heq])
    · exact h.keys_concat _ hkey
  · rw [List.lookup_cons]
    split
    · rfl
    · exact h.named key hkey

/-- The tables stay consistent with every name that is given. -/
theorem Consistent.answer (h : s.Consistent source params) (request : NameRequest) :
    (s.answer request).Consistent source params := by
  cases request with
  | fresh => exact h.given_new (by simp) s.ctx.symbols
  | part text isCall =>
    exact h.given_new (by simp)
      ((Context.generatedName s.ctx.nextNumber, ⟨text, isCall⟩) :: s.ctx.symbols)
  | literal value text =>
    simp only [NameSupply.answer, Context.intern]
    split
    · next name hname => exact h.given_again hname value
    · next hnew => exact h.given_literal hnew value

theorem Consistent.answerAll (h : s.Consistent source params) (requests : List NameRequest) :
    (s.answerAll requests).Consistent source params := by
  induction requests generalizing s with
  | nil => exact h
  | cons request rest ih => exact ih (h.answer request)

end

/-- The tables at the start hold the named constants. -/
theorem consistent_start (source : Text) (params : List Parameter) :
    Consistent source params { ctx := { Context.start source with params } } := by
  have hkeys : (Context.start source).constants.map Prod.fst = Constants.names := by
    rw [Context.start, List.map_map]
    rfl
  refine ⟨rfl, rfl, by simp, fun text => rfl, by simp [firstLiteral?], by simp, fun key hkey => ?_,
    fun key hkey => ?_⟩
  · exact .inl (hkeys ▸ Context.mem_map_fst_of_lookup hkey)
  · rw [← hkeys] at hkey
    obtain ⟨e, he, rfl⟩ := List.mem_map.mp hkey
    refine Option.isSome_iff_ne_none.mpr fun hnone => ?_
    have hne := List.lookup_eq_none_iff.mp hnone e he
    simp at hne

/-- However many names have been given, for whatever they were asked, the search for another one ends,
and that name does not occur in the source, is no named constant, no text of a literal, no name of a
part and no parameter, and has not been given before. Literals have one name just if they have one
text. The name, and the text too unless it means something else, stands for the literal that was read
first from the text. -/
theorem names_fresh (source : Text) (params : List Parameter) (requests : List NameRequest) :
    let s := answerAll { ctx := { Context.start source with params } } requests
    (∃ n, s.ctx.freshNumber? s.ctx.counter = some n ∧
      s.ctx.freshName.1 = Context.generatedName n ∧
      Text.contains s.ctx.freshName.1 source = false ∧
      s.ctx.freshName.1 ∉ Constants.names ∧
      (∀ v name, (.literal v s.ctx.freshName.1, name) ∉ s.given) ∧
      s.ctx.symbol? s.ctx.freshName.1 = none ∧
      (∀ p ∈ params, p.name.toList ≠ s.ctx.freshName.1) ∧
      s.ctx.freshName.1 ∉ s.given.map Prod.snd) ∧
    (∀ v text name v' text' name', (.literal v text, name) ∈ s.given →
      (.literal v' text', name') ∈ s.given → (name = name' ↔ text = text')) ∧
    ∀ v text name, (.literal v text, name) ∈ s.given →
      ∃ w, firstLiteral? s.given text = some (w, name) ∧
        s.ctx.constant? name = some ⟨w, text⟩ ∧
        (text ∉ Constants.names → text ∉ s.given.map Prod.snd →
          s.ctx.constant? text = some ⟨w, text⟩) := by
  intro s
  have h : s.Consistent source params := (consistent_start source params).answerAll requests
  have hfree : s.ctx.constant? s.ctx.freshName.1 = none := s.ctx.constant?_nextNumber
  have hread {v : Value} {text name : Text} (hmem : (.literal v text, name) ∈ s.given) :
      ∃ w, firstLiteral? s.given text = some (w, name) ∧
        s.ctx.constants.lookup name = some ⟨w, text⟩ := by
    obtain ⟨w, hw⟩ := h.shared v text name hmem
    exact ⟨w, hw, h.constants text w name hw⟩
  have hliteral {v : Value} {text name : Text} (hfirst : firstLiteral? s.given text = some (v, name)) :
      s.ctx.literals.lookup text = some name := by
    rw [h.literals, hfirst]
    rfl
  refine ⟨⟨s.ctx.nextNumber, s.ctx.freshNumber?_eq_some, rfl, ?_, fun hmem => ?_, fun v name hmem => ?_,
    s.ctx.symbol?_nextNumber, fun p hp => ?_, h.not_mem_given⟩,
    fun v text name v' text' name' hmem hmem' => ⟨?_, ?_⟩, fun v text name hmem => ?_⟩
  · exact h.source ▸ s.ctx.contains_nextNumber
  · have hsome := h.named _ hmem
    rw [Context.lookup_constants_of_constant? hfree] at hsome
    cases hsome
  · obtain ⟨w, hfirst, hconstant⟩ := hread hmem
    rw [Context.constant?, hliteral hfirst, Option.bind_some, hconstant] at hfree
    exact absurd (Option.or_eq_none_iff.mp hfree).2 (by simp)
  · exact s.ctx.ne_of_mem_params (h.params ▸ hp)
  · rintro rfl
    obtain ⟨w, -, hconstant⟩ := hread hmem
    obtain ⟨w', -, hconstant'⟩ := hread hmem'
    exact congrArg Constant.text (Option.some.inj (hconstant.symm.trans hconstant'))
  · rintro rfl
    obtain ⟨w, hfirst, -⟩ := hread hmem
    obtain ⟨w', hfirst', -⟩ := hread hmem'
    exact (Prod.mk.inj (Option.some.inj (hfirst.symm.trans hfirst'))).2
  · obtain ⟨w, hfirst, hconstant⟩ := hread hmem
    refine ⟨w, hfirst, ?_, fun hnamed hgiven => ?_⟩
    · rw [Context.constant?, hconstant, Option.some_or]
    · have hnone : s.ctx.constants.lookup text = none := by
        by_contra hne
        exact (h.keys text (Option.isSome_iff_ne_none.mpr hne)).elim hnamed hgiven
      rw [Context.constant?, hnone, Option.none_or, hliteral hfirst, Option.bind_some, hconstant]

/-- A name that occurs in the source is passed over, and equal literals share one. -/
example : ((answerAll { ctx := Context.start "item0001 + 2 + 2".toList }
      [.literal (.integer 2) "2".toList, .literal (.integer 2) "2".toList, .fresh]).given.map
        Prod.snd).map String.ofList = ["item0002", "item0002", "item0003"] := by
  decide

end NameSupply

end Formula
