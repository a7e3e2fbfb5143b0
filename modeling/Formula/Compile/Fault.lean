import Formula.Node.Basic
import Formula.Text.Basic

/-!
# Why a text is no expression

## Main definitions

* `CompileFault`, `CompileFault.message`: the reasons and their wording.
* `maxSplits`: how many splits are tried before a text is given up.
-/

namespace Formula

/-- Why a text is no expression. -/
inductive CompileFault where
  | empty
  | unbalanced (text : Text)
  | emptyGroup (text : Text)
  | invalidOperand (text : Text)
  | unknownFunction (name : Text) (arity : Nat)
  | illTyped (fault : TypeFault)
  | unresolved (text : Text)
  | tooComplex
  | cancelled
  /-- A place was counted beyond the machine words: the compilation is aborted. -/
  | overrun
  deriving DecidableEq

/-- Splits tried in one compilation before the text is given up. -/
def maxSplits : Nat := 100000

/-- The wording of a fault. -/
def CompileFault.message : CompileFault → String
  | empty => "expression is empty"
  | unbalanced text => s!"unbalanced parentheses in `{String.ofList text}`"
  | emptyGroup text => s!"empty group or argument in `{String.ofList text}`"
  | invalidOperand text => s!"`{String.ofList text}` is neither a literal nor a parameter name"
  | unknownFunction name arity =>
    s!"no function `{String.ofList name}` taking {arity} arguments"
  | illTyped fault => fault.message
  | unresolved text => s!"cannot resolve `{String.ofList text}`"
  | tooComplex => s!"gave up after {maxSplits} split attempts"
  | cancelled => "compilation cancelled"
  | overrun => "attempt to add with overflow"

end Formula
