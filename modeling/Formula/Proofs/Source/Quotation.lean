import Formula.Proofs.Source.Operand

/-!
# Quotation

A string is quoted by putting it between quotation marks, with a backslash before every quotation
mark and every backslash in it. Reading undoes the quotation exactly, whatever stands in the string;
what is left of a quoted string in a source is one name, and the expression is the constant string.

## Main definitions

* `Source.quote`: a string between quotation marks.

## Main results

* `Extractor.readQuoted_flatMap_escape`: reading undoes the quotation.
* `Compiler.expression_quote`: a quoted string is an expression for the string.
-/

namespace Formula

namespace Source

/-- A character between quotation marks. -/
def escape (c : Char) : Text :=
  if c = '"' ∨ c = '\\' then ['\\', c] else [c]

/-- A text between quotation marks. -/
def quote (content : Text) : Text :=
  '"' :: content.flatMap escape ++ ['"']

end Source

/-- Reading undoes the quotation. -/
theorem Extractor.readQuoted_flatMap_escape (content rest : Text) :
    readQuoted ['"'] ['\\'] none (content.flatMap Source.escape ++ '"' :: rest) =
      some (content, rest) := by
  induction content with
  | nil => rfl
  | cons c content ih =>
    rw [List.flatMap_cons, Source.escape]
    split
    · -- the backslash makes the character after it literal
      change (readQuoted ['"'] ['\\'] none (content.flatMap Source.escape ++ '"' :: rest)).map _ = _
      rw [ih]
      rfl
    · next hplain =>
      obtain ⟨hquote, hescape⟩ := not_or.mp hplain
      have hnoescape : Text.startsWith ['\\'] (c :: (content.flatMap Source.escape ++ '"' :: rest)) =
          false := by
        simp [Ne.symm hescape]
      have hnoquote : Text.after? ['"'] (c :: (content.flatMap Source.escape ++ '"' :: rest)) =
          none := by
        simp [Text.after?, Ne.symm hquote]
      rw [List.singleton_append, List.cons_append, readQuoted, hnoescape, if_neg (by simp), hnoquote]
      dsimp only
      rw [ih]
      rfl

namespace Source

/-- A quoted text is a string literal from end to end. -/
theorem firstString?_quote (content : Text) :
    firstString? (quote content) = some ⟨[], quote content, content, []⟩ := by
  have hcut : Text.cut? ['"'] (quote content) =
      some ([], content.flatMap escape ++ ['"']) := rfl
  rw [firstString?, hcut, Option.bind_some, Extractor.readQuoted_flatMap_escape]
  simp [quote]

end Source

namespace Context

theorem takeStrings_quote (content : Text) :
    takeStrings (Source.quote content) (start (Source.quote content)) =
      (start (Source.quote content)).intern (.string (String.ofList content))
        (Source.quote content) := by
  rw [takeStrings_of_some (Source.firstString?_quote content),
    takeStrings_of_none (show Source.firstString? [] = none from rfl),
    List.nil_append, List.append_nil]

end Context

namespace Compiler

/-- What is left of a quoted text is one name, which stands for it. -/
theorem outcome_quote (style : Precedence) (content : Text) :
    ((common style).compile (Source.quote content) false).outcome =
      .ok (.constant (.string (String.ofList content)) (String.ofList (Source.quote content)), []) := by
  let value : Value := .string (String.ofList content)
  let named := (Context.start (Source.quote content)).intern value (Source.quote content)
  have hpristine := Context.pristine_start (Source.quote content)
  have hname := hpristine.intern_eq value (Source.quote content)
  obtain ⟨n, hn⟩ : ∃ n, named.1 = Context.generatedName n := ⟨_, congrArg Prod.fst hname⟩
  have hbare : Text.Bare named.1 := hn ▸ Text.bare_generatedName n
  have hliterals : (Context.start (Source.quote content)).extractLiterals { precedence := style }
      Registry.standard = (named.1, { named.2 with unquoted := named.1 }) :=
    Context.extractLiterals_bare (Context.takeStrings_quote content) hbare
      (hn ▸ Extractor.scanNumber_generatedName n)
  exact outcome_known ⟨value, Source.quote content⟩ hliterals hbare
    (congrArg (fun p => p.2.cancelled) hname) (congrArg (fun p => p.2.symbols) hname)
    (hpristine.constant?_mainName value (by simp [Source.quote])) (hpristine.constant?_name value _)

/-- A quoted string is an expression for the string, whatever the string is. -/
theorem expression_quote (style : Precedence) (s : String) :
    let e := (common style).expression (String.ofList (Source.quote s.toList))
    e.isRecognized = true ∧ e.isConstant = true ∧ e.parameters = [] ∧
      ∀ draws tolerance, (e.evaluate draws [] tolerance).outcome = .ok (.string s) := by
  have h := outcome_quote style s.toList
  rw [String.ofList_toList] at h
  exact expression_constant (by rwa [String.toList_ofList])

end Compiler

end Formula
