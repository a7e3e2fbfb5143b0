import Formula.Json.Tree
import Formula.Tolerance.Basic

/-!
# Tolerances from data exchange text

A tolerance is a record of three fields, all of which may be left out or null.

## Main definitions

* `Tolerance.ofJson?`: reads a tolerance.
-/

namespace Formula.Tolerance

/-- The names of the fields, in order. -/
def fieldNames : List String := ["integerRange", "range", "proportion"]

/-- Reads one field, by its position. -/
def readField? (tolerance : Tolerance) (position : Nat) (tree : Json.Tree) : Option Tolerance :=
  match position with
  | 0 => (tree.optional (·.pair? (·.integer?))).map fun r => { tolerance with integerRange := r }
  | 1 => (tree.optional (·.pair? (·.double?))).map fun r => { tolerance with range := r }
  | _ => (tree.optional (·.double?)).map fun p => { tolerance with proportion := p }

/-- Reads a tolerance. -/
def ofJson? (text : String) : Option Tolerance := do
  let tree ← Json.Tree.parse? text.toList
  let fields ← tree.record? fieldNames
  fields.foldlM (fun tolerance (position, tree) => tolerance.readField? position tree) {}

end Formula.Tolerance
