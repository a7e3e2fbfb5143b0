import Formula.Proofs.Compile.Preparation
import Formula.Proofs.Source.Loops
import Formula.Proofs.Source.Numerals
import Formula.Proofs.Text.Nesting
import Mathlib.Data.List.Count

/-!
# When the rewriting stages end

A group gives way to a name, and the name is searched for groups in its turn. So where a generated
name holds both parentheses, the search for groups can go on for ever. A definition is checked for
operators that could be part of a name, but not for parentheses that could.

If some character of the parentheses stands in no generated name, each group takes one of them away
and none comes back, so every text is rewritten to the end.

## Main definitions

* `Definition.GroupsEnd`: some character of the parentheses stands in no generated name.

## Main results

* `Context.flatten?_eq_some`: for such a definition the groups of every text come to an end.
* `Compiler.rewrite_ends`: for such a definition all rewriting stages end, on every source.
* `Compiler.rewrite_endless`: for another one, which passes all checks, they do not.
-/

namespace Formula

/-- Whether a character stands in generated names. -/
def isNameChar (c : Char) : Bool :=
  c.isDigit || "item".toList.contains c

/-- Some character of the parentheses stands in no generated name. -/
def Definition.GroupsEnd (d : Definition) : Prop :=
  ∃ c ∈ d.parentheses.1.toList ++ d.parentheses.2.toList, isNameChar c = false

instance (d : Definition) : Decidable d.GroupsEnd :=
  List.decidableBEx _ _

/-- The rule that operators have to keep would be enough, kept by the open parenthesis alone. -/
theorem Definition.groupsEnd_of_operatorFault? {d : Definition} {field : String}
    (h : operatorFault? (field, d.parentheses.1) = none) : d.GroupsEnd := by
  have hall : d.parentheses.1.toList.all Text.isWordChar = false :=
    Bool.eq_false_of_not_eq_true fun hall => by simp [operatorFault?, hall] at h
  obtain ⟨c, hc, hsymbol⟩ := List.all_eq_false.mp hall
  refine ⟨c, List.mem_append_left _ hc, ?_⟩
  by_contra hname
  rw [Bool.not_eq_false, isNameChar, Bool.or_eq_true] at hname
  rcases hname with hdigit | hletter
  · exact hsymbol (Text.isWordChar_of_isDigit hdigit)
  · exact hsymbol (List.all_eq_true.mp (by decide) c (List.contains_iff_mem.mp hletter))

namespace Context

theorem isNameChar_of_mem_generatedName {n : Nat} {c : Char} (hc : c ∈ generatedName n) :
    isNameChar c = true := by
  obtain ⟨digits, hdigits, hn⟩ := generatedName_eq n
  rw [hn, List.mem_append] at hc
  rw [isNameChar, Bool.or_eq_true]
  exact hc.symm.imp (hdigits c) List.contains_iff_mem.mpr

theorem addSymbol_fst (ctx : Context) (text : Text) (isCall : Bool) :
    ∃ n, (ctx.addSymbol text isCall).1 = generatedName n :=
  ⟨_, rfl⟩

section

variable {opening closing : Text} {c : Char}

/-- A group takes a character of the parentheses along that no name brings back. -/
theorem count_lt_of_flattenStep (hc : c ∈ opening ++ closing) (hname : isNameChar c = false)
    {text text' : Text} {ctx ctx' : Context}
    (h : flattenStep opening closing text ctx = some (.ok (text', ctx'))) :
    text'.count c < text.count c := by
  rw [flattenStep, Option.map_eq_some_iff] at h
  obtain ⟨⟨before, tail⟩, hopen, h⟩ := h
  dsimp only at h
  split at h
  · cases h
  · next inner rest hclose =>
    obtain rfl := Text.eq_append_of_cutLast? hopen
    obtain rfl := Text.eq_append_of_cut? hclose
    have htokens : 0 < opening.count c + closing.count c := by
      rw [← List.count_append]
      exact List.count_pos_iff.mpr hc
    split at h
    · cases h
    · obtain ⟨rfl, -⟩ := Prod.mk.inj (Except.ok.inj h)
      split
      · -- the group was a known name
        simp only [List.count_append]
        omega
      · obtain ⟨n, hn⟩ := addSymbol_fst ctx inner false
        have hnone : List.count c (ctx.addSymbol inner false).1 = 0 := by
          rw [hn, List.count_eq_zero]
          intro hmem
          simp [isNameChar_of_mem_generatedName hmem] at hname
        simp only [List.count_append, hnone]
        omega

theorem flatten?_isSome (hc : c ∈ opening ++ closing) (hname : isNameChar c = false)
    (text : Text) (ctx : Context) : (flatten? opening closing text ctx).isSome := by
  induction h : text.count c using Nat.strong_induction_on generalizing text ctx with
  | _ count ih =>
    rw [flatten?]
    split
    · rfl
    · rfl
    · next text' ctx' hstep =>
      exact ih _ (h ▸ count_lt_of_flattenStep hc hname hstep) text' ctx' rfl

/-- If a character of the parentheses stands in no generated name, the groups come to an end. -/
theorem flatten?_eq_some (hc : c ∈ opening ++ closing) (hname : isNameChar c = false)
    (text : Text) (ctx : Context) :
    flatten? opening closing text ctx = some (flattenText opening closing text ctx) := by
  obtain ⟨outcome, h⟩ := Option.isSome_iff_exists.mp (flatten?_isSome hc hname text ctx)
  rw [flattenText, h, Option.getD_some]

theorem flattenSymbols?_eq_ended (hc : c ∈ opening ++ closing) (hname : isNameChar c = false)
    (keys : List Text) (ctx : Context) :
    flattenSymbols? opening closing keys ctx
      = .ended (flattenSymbols opening closing keys ctx) := by
  induction keys generalizing ctx with
  | nil => rfl
  | cons key keys ih =>
    rw [flattenSymbols?, flattenSymbols]
    cases ctx.symbol? key with
    | none => exact ih ctx
    | some symbol =>
      dsimp only
      rw [flatten?_eq_some hc hname]
      cases flattenText opening closing symbol.text ctx with
      | error fault => rfl
      | ok result => exact ih _

theorem flattenGroups?_eq_ended (hc : c ∈ opening ++ closing) (hname : isNameChar c = false)
    (ctx : Context) :
    ctx.flattenGroups? opening closing = .ended (ctx.flattenGroups opening closing) :=
  flattenSymbols?_eq_ended hc hname ..

end

end Context

namespace Compiler

theorem resolve?_eq_ended {c : Compiler} (h : c.definition.GroupsEnd) (text : Text)
    (ctx : Context) : c.resolve? text ctx = .ended (c.resolve text ctx) := by
  obtain ⟨ch, hmem, hname⟩ := h
  have hmem : ch ∈ c.tokens.opening ++ c.tokens.closing := hmem
  rw [resolve?, resolve]
  by_cases hempty : text = []
  · rw [if_pos hempty, if_pos hempty]
    rfl
  rw [if_neg hempty, if_neg hempty]
  refine Rewriting.ended_bind fun _ => ?_
  dsimp only
  rw [Context.extractCalls?_eq_ended]
  refine Rewriting.ended_bind fun result => ?_
  rw [Context.flattenGroups?_eq_ended hmem hname]
  exact Rewriting.ended_bind fun _ => rfl

theorem make_eq_ok {d : Definition} {registry : Registry} {c : Compiler}
    (h : make d registry = .ok c) :
    d.validate = .ok () ∧ c = { definition := d, registry, markers := .ofDefinition d } := by
  rw [make] at h
  cases hd : d.validate with
  | error fault =>
    rw [hd] at h
    cases h
  | ok u =>
    rw [hd] at h
    exact ⟨rfl, (Except.ok.inj h).symm⟩

/-- For every definition that is accepted, if some character of its parentheses stands in no
generated name, then all rewriting stages end on every source, whatever the extractors of the
registry answer. -/
theorem rewrite_ends {d : Definition} {registry : Registry} {c : Compiler}
    (hmake : make d registry = .ok c) (h : d.GroupsEnd) (source : Text) :
    c.rewrite? source = .ended (c.rewrite source) := by
  obtain ⟨-, rfl⟩ := make_eq_ok hmake
  rw [rewrite?, Context.extractLiterals?_eq_some, Option.bind_some]
  refine resolve?_eq_ended ?_ ..
  exact h

/-- The common parentheses stand in no name, so `2*(x+1)` is rewritten to the end. -/
theorem rewrite_ends_common :
    make Definition.default Registry.standard = .ok (common .mathematical) ∧
      Definition.default.GroupsEnd ∧
        (common .mathematical).rewrite? "2*(x+1)".toList
          = .ended ((common .mathematical).rewrite "2*(x+1)".toList) :=
  ⟨make_common .mathematical, by decide, rewrite_ends (make_common .mathematical) (by decide) _⟩

end Compiler

/-! ### Parentheses that stand in names -/

/-- The common tokens, with two letters of the generated names for parentheses. -/
def Definition.lettered : Definition where
  parentheses := ("i", "m")

/-- The compiler for these tokens. -/
def Compiler.lettered : Compiler where
  definition := .lettered
  registry := Registry.standard
  markers := Markers.ofDefinition .lettered

theorem Compiler.make_lettered :
    Compiler.make .lettered Registry.standard = .ok Compiler.lettered := by
  have hvalid : Definition.lettered.validate = .ok () := by decide
  rw [make, hvalid]
  rfl

namespace Context

/-- A text with the group that every generated name brings, and nothing else that opens. -/
def Endless (text : Text) : Prop :=
  ∃ digits : Text, (∀ c ∈ digits, c.isDigit = true) ∧ text = "item".toList ++ digits

/-- The text between the parentheses of a generated name. -/
def nameGroup : Text :=
  "te".toList

theorem isKnown_addSymbol {ctx : Context} {key : Text} (hkey : ∀ n, key ≠ generatedName n)
    (text : Text) (isCall : Bool) : (ctx.addSymbol text isCall).2.isKnown key = ctx.isKnown key := by
  have hlookup : (ctx.addSymbol text isCall).2.symbol? key = ctx.symbol? key := by
    change List.lookup key (_ :: _) = _
    rw [List.lookup_cons, beq_false_of_ne (hkey _)]
    rfl
  rw [isKnown, hlookup]
  rfl

theorem nameGroup_ne (n : Nat) : nameGroup ≠ generatedName n := by
  intro h
  cases h

/-- The group of an endless text gives way to a name, and the text is endless again. -/
theorem Endless.step {text : Text} (h : Endless text) {ctx : Context}
    (hknown : ctx.isKnown nameGroup = false) :
    ∃ text' ctx', ctx.flattenStep ['i'] ['m'] text = some (.ok (text', ctx')) ∧
      Endless text' ∧ ctx'.isKnown nameGroup = false := by
  obtain ⟨digits, hdigits, rfl⟩ := h
  have hopen : Text.cutLast? ['i'] ("item".toList ++ digits) = some ([], "tem".toList ++ digits) :=
    Text.cutLast?_append_cons [] fun hmem => by
      rcases List.mem_append.mp hmem with hmem | hmem
      · exact absurd hmem (by decide)
      · exact absurd (hdigits _ hmem) (by decide)
  have hclose : Text.cut? ['m'] ("tem".toList ++ digits) = some (nameGroup, digits) :=
    Text.cut?_append_cons (a := nameGroup) (by decide) digits
  obtain ⟨n, hn⟩ := addSymbol_fst ctx nameGroup false
  obtain ⟨more, hmore, hname⟩ := generatedName_eq n
  refine ⟨(ctx.addSymbol nameGroup false).1 ++ digits, (ctx.addSymbol nameGroup false).2, ?_,
    ⟨more ++ digits, List.forall_mem_append.mpr ⟨hmore, hdigits⟩, ?_⟩, ?_⟩
  · simp only [flattenStep, hopen, hclose, hknown, Option.map_some]
    rfl
  · rw [hn, hname, List.append_assoc]
  · rw [isKnown_addSymbol nameGroup_ne, hknown]

/-- The groups of an endless text never come to an end. -/
theorem Endless.flatten?_eq_none {text : Text} (h : Endless text) {ctx : Context}
    (hknown : ctx.isKnown nameGroup = false) : flatten? ['i'] ['m'] text ctx = none := by
  refine Option.eq_none_iff_forall_ne_some.mpr fun outcome houtcome => ?_
  -- an outcome would be one of the rest of the loop, which runs on an endless text again
  refine flatten?.partial_correctness ['i'] ['m']
    (fun text ctx _ => Endless text → ctx.isKnown nameGroup = false → False) ?_ text ctx _ houtcome
      h hknown
  rintro loop ih text ctx r hr h hknown
  obtain ⟨text', ctx', hstep, h', hknown'⟩ := h.step hknown
  rw [hstep] at hr
  exact ih _ _ _ hr h' hknown'

theorem flattenGroups?_eq_none {text : Text} {ctx : Context}
    (hsymbols : ctx.symbols = [(mainName, ⟨text, false⟩)]) (h : Endless text)
    (hknown : ctx.isKnown nameGroup = false) : ctx.flattenGroups? ['i'] ['m'] = none := by
  have hkeys : (ctx.sortedSymbols.filter fun p => !p.2.isCall).map Prod.fst = [mainName] := by
    rw [sortedSymbols, hsymbols, List.mergeSort_singleton]
    rfl
  have hsymbol : ctx.symbol? mainName = some ⟨text, false⟩ := by
    rw [symbol?, hsymbols, List.lookup_cons_self]
  change flattenSymbols? ['i'] ['m'] ((ctx.sortedSymbols.filter fun p => !p.2.isCall).map Prod.fst)
    ctx = none
  rw [hkeys, flattenSymbols?, hsymbol]
  dsimp only
  rw [h.flatten?_eq_none hknown]
  rfl

end Context

namespace Compiler

/-- With letters of the generated names for parentheses, which are accepted, a text of four letters
is never rewritten to the end. -/
theorem rewrite_endless :
    make .lettered Registry.standard = .ok lettered ∧ lettered.rewrite? "item".toList = none := by
  refine ⟨make_lettered, ?_⟩
  have hliterals : (Context.start "item".toList).extractLiterals lettered.definition
      lettered.registry = ("item".toList, Context.start "item".toList) :=
    Context.extractLiterals_eq_self (by decide) (by decide) (by decide)
      (Extractor.scanNumber_word (List.all_eq_true.mp (by decide)) fun h =>
        absurd h (by decide)) .mathematical
  have hcalls (ctx : Context) :
      ctx.extractCalls? lettered.tokens "item".toList = .ended (.ok ("item".toList, ctx)) :=
    Context.extractCallsFrom?_done (by decide)
  let ctx : Context := { Context.start "item".toList with
    symbols := [(Context.mainName, ⟨"item".toList, false⟩)] }
  have hgroups : ctx.flattenGroups? lettered.tokens.opening lettered.tokens.closing = none :=
    Context.flattenGroups?_eq_none rfl ⟨[], by simp, rfl⟩ (by decide)
  rw [rewrite?, Context.extractLiterals?_eq_some, hliterals, Option.bind_some, resolve?,
    if_neg (by decide)]
  dsimp only
  rw [hcalls]
  change (ctx.flattenGroups? lettered.tokens.opening lettered.tokens.closing >>= _) = none
  rw [hgroups]
  rfl

end Compiler

end Formula
