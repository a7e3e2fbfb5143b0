import Formula.Compile.Context
import Formula.Compile.Markers
import Formula.Function
import Formula.Text.Nesting

/-!
# Taking calls out of a text

Every call of a function is replaced by the name of a symbol that holds it. Calls inside its
arguments go first; an argument that is then more than a plain operand becomes a symbol of its
own.

## Main definitions

* `findCall?`: the leftmost call of a function.
* `Context.extractCalls`: takes all calls out of a text.
-/

namespace Formula

/-- The word at the end of a text and what precedes it. -/
def lastWord (text : Text) : Text × Text :=
  let reversed := text.reverse
  ((reversed.dropWhile Text.isWordChar).reverse, (reversed.takeWhile Text.isWordChar).reverse)

theorem lastWord_append (text : Text) : (lastWord text).1 ++ (lastWord text).2 = text := by
  simp only [lastWord, ← List.reverse_append, List.takeWhile_append_dropWhile,
    List.reverse_reverse]

/-- Whether a word is the name of a function. -/
def isFunctionName (word : Text) : Bool :=
  Text.isIdentifier word && Function.isName (String.ofList word)

/-- The leftmost call of a function: what precedes it, the name of the function and what follows
the open token. -/
def findCall? (opening text : Text) : Option (Text × Text × Text) :=
  (Text.cuts opening text).findSome? fun (before, rest) =>
    let (head, word) := lastWord before
    if isFunctionName word then some (head, word, rest) else none

theorem length_of_findCall? {opening text head word rest : Text}
    (h : findCall? opening text = some (head, word, rest)) : rest.length < text.length := by
  obtain ⟨⟨before, tail⟩, hmem, h⟩ := List.exists_of_findSome?_eq_some h
  simp only [Option.ite_none_right_eq_some, Option.some.injEq, Prod.mk.injEq] at h
  obtain ⟨hname, rfl, rfl, rfl⟩ := h
  have hword : (lastWord before).2 ≠ [] := by
    intro hnil
    simp [hnil, isFunctionName, Text.isIdentifier] at hname
  have hbefore := congrArg List.length (lastWord_append before)
  have htext := congrArg List.length (Text.eq_append_of_mem_cuts hmem)
  have hpos := List.length_pos_iff.2 hword
  simp only [List.length_append] at hbefore htext
  omega

namespace Context

/-- The tokens that calls are made of. -/
structure CallTokens where
  opening : Text
  closing : Text
  separator : Text
  markers : Markers

/-- The call tokens of a definition. -/
def CallTokens.ofDefinition (d : Definition) (markers : Markers) : CallTokens where
  opening := d.parentheses.1.toList
  closing := d.parentheses.2.toList
  separator := d.parameterSeparator.toList
  markers := markers

/-- Whether a text is a plain operand. -/
def CallTokens.isPlain (tokens : CallTokens) (text : Text) : Bool :=
  !tokens.markers.containsOperator text && !Text.contains tokens.opening text

/-- The arguments between the parentheses of a call. -/
def CallTokens.arguments (tokens : CallTokens) (inner : Text) : List Text :=
  match Text.splitTop tokens.opening tokens.closing tokens.separator 0 0 true inner with
  | [[]] => []
  | parts => parts

/-- The text of a call of a function on plain operands. -/
def CallTokens.call (tokens : CallTokens) (name : Text) (operands : List Text) : Text :=
  name ++ tokens.opening ++ tokens.separator.intercalate operands ++ tokens.closing

theorem CallTokens.length_le_of_mem_arguments (tokens : CallTokens) {inner arg : Text}
    (h : arg ∈ tokens.arguments inner) : arg.length ≤ inner.length := by
  unfold arguments at h
  split at h
  · simp at h
  · exact Text.length_le_of_mem_splitTop arg h

mutual

/-- Takes the calls out of `rest`, the part of `whole` that is still to be looked at. -/
def extractCallsFrom (tokens : CallTokens) (whole rest : Text) (ctx : Context) :
    Except CompileFault (Text × Context) :=
  match h : findCall? tokens.opening rest with
  | none => .ok (rest, ctx)
  | some (head, name, tail) =>
    match hclose : Text.matchClose? tokens.opening tokens.closing 0 0 tail with
    | none => .error (.unbalanced whole)
    | some (inner, after) =>
      have hfind := length_of_findCall? h
      have hmatch := Text.length_of_matchClose? hclose
      have hargs : ∀ arg ∈ tokens.arguments inner, arg.length < rest.length := fun _ harg => by
        have := tokens.length_le_of_mem_arguments harg
        omega
      match extractArguments tokens whole rest.length (tokens.arguments inner) hargs ctx with
      | .error fault => .error fault
      | .ok (operands, ctx) =>
        let named := ctx.addSymbol (tokens.call name operands) true
        match extractCallsFrom tokens whole after named.2 with
        | .error fault => .error fault
        | .ok (text, ctx) => .ok (head ++ named.1 ++ text, ctx)
termination_by (rest.length + 1, 0)
decreasing_by
  all_goals
    first
      | exact Prod.Lex.left _ _ (Nat.lt_succ_self _)
      | exact Prod.Lex.left _ _ (by omega)

/-- Makes plain operands of arguments, which are all shorter than `bound`. -/
def extractArguments (tokens : CallTokens) (whole : Text) (bound : Nat) (args : List Text)
    (h : ∀ arg ∈ args, arg.length < bound) (ctx : Context) :
    Except CompileFault (List Text × Context) :=
  match args with
  | [] => .ok ([], ctx)
  | arg :: rest =>
    have := h arg (List.mem_cons_self ..)
    match extractCallsFrom tokens arg arg ctx with
    | .error fault => .error fault
    | .ok (text, ctx) =>
      if text = [] then .error (.emptyGroup whole)
      else
        let named := if tokens.isPlain text then (text, ctx) else ctx.addSymbol text false
        match extractArguments tokens whole bound rest (fun a ha => h a (List.mem_cons_of_mem _ ha))
          named.2 with
        | .error fault => .error fault
        | .ok (operands, ctx) => .ok (named.1 :: operands, ctx)
termination_by (bound, args.length)
decreasing_by
  · rcases Nat.lt_or_eq_of_le (Nat.succ_le_of_lt this) with hlt | heq
    · exact Prod.Lex.left _ _ hlt
    · rw [← heq]
      exact Prod.Lex.right _ (by simp)
  · exact Prod.Lex.right _ (by simp)

end

/-- Takes all calls out of a text. -/
def extractCalls (tokens : CallTokens) (text : Text) (ctx : Context) :
    Except CompileFault (Text × Context) :=
  extractCallsFrom tokens text text ctx

end Context

end Formula
