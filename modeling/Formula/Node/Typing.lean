import Formula.Node.Basic

/-!
# Type inference

Three operations on the types of a tree. Refreshing recomputes the cost tables from the leaves up.
Weak determination narrows a tree to a mask: overloads that cannot serve are dropped, and what is
left of them narrows the operands in turn. Strong determination settles on the cheapest overload
for one type, from the root down.

Each operation goes from left to right. One that fails leaves what it has done so far, so all of
them return the tree they arrived at beside the fault that stopped them.

## Main definitions

* `Node.costs`, `Node.returns`: what a tree can produce, and what it produces by itself.
* `Node.refresh`, `Node.weaken`, `Node.strengthen`: the three operations.
* `Node.unary`, `Node.binary`, `Node.call`: applications, weakly determined.
-/

namespace Formula

/-- Narrows the types of a parameter. -/
def narrow (params : List Parameter) (id : Nat) (mask : TypeMask) :
    Except TypeFault (List Parameter) :=
  match params[id]? with
  | none => .error (.unknownParameter id)
  | some param =>
    let narrowed := param.supported.inter mask
    if narrowed.isEmpty then .error (.parameterExcluded param.name mask)
    else .ok (params.set id { param with supported := narrowed })

namespace Signature

/-- What the operands cost together, if they can produce the argument types. -/
def operandCost? (s : Signature) (operands : List CostTable) : Option Nat :=
  (s.args.zip operands).foldlM (fun total (t, costs) =>
    (costs.get? t).map fun c => total + c.cost) 0

/-- Whether the operands can produce the argument types. -/
def isViable (s : Signature) (operands : List CostTable) : Bool :=
  (s.args.zip operands).all fun (t, costs) => (costs.get? t).isSome

/-- Whether the result can be made into a type of the mask. -/
def reaches (s : Signature) (mask : TypeMask) : Bool :=
  mask.types.any fun t => (conversionCost? s.result t).isSome

end Signature

namespace Typing

/-- The cheapest overload for every type, given what the operands cost. -/
def costsFor (signatures : List Signature) (operands : List CostTable) : CostTable :=
  signatures.zipIdx.foldl (fun table (s, choice) =>
    match s.operandCost? operands with
    | some total => table.offerConversions total s.result choice
    | none => table) CostTable.empty

/-- Recomputes the cost table. -/
def compute (typing : Typing) (operands : List CostTable) : Except TypeFault Typing :=
  let costs := costsFor typing.signatures operands
  if costs.isEmpty then .error .noOverloadAccepts else .ok { typing with costs }

/-- The types that the overloads ask of the operand at a place. -/
def operandMask (signatures : List Signature) (place : Nat) : TypeMask :=
  signatures.foldl (fun mask s => mask.union (TypeMask.of (s.args.getD place .unknown)))
    TypeMask.empty

end Typing

namespace Node

/-- What the tree can be made to produce. -/
def costs (params : List Parameter) : Node → CostTable
  | constant value _ => CostTable.leaf (TypeMask.of value.type)
  | parameter id =>
    CostTable.leaf ((params[id]?.map Parameter.supported).getD TypeMask.empty)
  | apply _ _ typing => typing.costs

/-- The type the tree produces when nothing forces another one. -/
def returns (params : List Parameter) (node : Node) : ValueType :=
  (node.costs params).preferred?.getD .unknown

/-! ## Refreshing -/

mutual

/-- Recomputes the cost tables of a tree from the leaves up. -/
def refresh (params : List Parameter) : Node → Node × Option TypeFault
  | constant value text => (constant value text, none)
  | parameter id => (parameter id, none)
  | apply head operands typing =>
    match refreshAll params operands with
    | (operands, some fault) => (apply head operands typing, some fault)
    | (operands, none) =>
      match typing.compute (operands.map (costs params)) with
      | .ok typing => (apply head operands typing, none)
      | .error fault => (apply head operands typing, some fault)

/-- Recomputes the cost tables of several trees in turn. -/
def refreshAll (params : List Parameter) : List Node → List Node × Option TypeFault
  | [] => ([], none)
  | n :: rest =>
    match refresh params n with
    | (n, some fault) => (n :: rest, some fault)
    | (n, none) =>
      let (rest, fault) := refreshAll params rest
      (n :: rest, fault)

end

mutual

/-- Refreshing keeps the shape of a tree. -/
theorem size_refresh (params : List Parameter) (node : Node) :
    (refresh params node).1.size = node.size := by
  match node with
  | constant _ _ => rfl
  | parameter _ => rfl
  | apply head operands typing =>
    have h := sizeAll_refreshAll params operands
    rw [refresh]
    split
    · next heq => rw [heq] at h; simp [size, h]
    · next heq =>
      rw [heq] at h
      split <;> simp [size, h]

/-- Refreshing keeps the shapes of trees. -/
theorem sizeAll_refreshAll (params : List Parameter) (nodes : List Node) :
    sizeAll (refreshAll params nodes).1 = sizeAll nodes := by
  match nodes with
  | [] => rfl
  | n :: rest =>
    have hn := size_refresh params n
    have hr := sizeAll_refreshAll params rest
    rw [refreshAll]
    split
    · next heq => rw [heq] at hn; simp [sizeAll, hn]
    · next heq => rw [heq] at hn; simp [sizeAll, hn, hr]

end

/-! ## Weak determination -/

mutual

/-- Narrows a tree, and the parameters in it, to the types of a mask. -/
def weaken (mask : TypeMask) (node : Node) (params : List Parameter) :
    Node × List Parameter × Option TypeFault :=
  match node with
  | constant value text =>
    let reachable := (CostTable.leaf (TypeMask.of value.type)).supported
    let fault := if (reachable.inter mask).isEmpty then some (.constantExcluded text mask) else none
    (constant value text, params, fault)
  | parameter id =>
    match narrow params id mask.sources with
    | .ok params => (parameter id, params, none)
    | .error fault => (parameter id, params, some fault)
  | apply head operands typing =>
    match h : refreshAll params operands with
    | (operands', some fault) => (apply head operands' typing, params, some fault)
    | (operands', none) =>
      let costs := operands'.map (costs params)
      let signatures := typing.signatures.filter fun s => s.isViable costs && s.reaches mask
      let typing := { typing with signatures }
      if signatures.isEmpty then
        (apply head operands' typing, params, some (.noOverloadAmong mask))
      else
        have : sizeAll operands' = sizeAll operands := by
          rw [← sizeAll_refreshAll params operands, h]
        match weakenAll signatures 0 operands' params with
        | (operands', params, some fault) => (apply head operands' typing, params, some fault)
        | (operands', params, none) =>
          match typing.compute (operands'.map (Node.costs params)) with
          | .ok typing => (apply head operands' typing, params, none)
          | .error fault => (apply head operands' typing, params, some fault)
termination_by 2 * node.size
decreasing_by
  simp only [size, this]
  omega

/-- Narrows operands in turn, the first of them at a given place, to what the overloads ask of
them. -/
def weakenAll (signatures : List Signature) (place : Nat) (nodes : List Node)
    (params : List Parameter) : List Node × List Parameter × Option TypeFault :=
  match nodes with
  | [] => ([], params, none)
  | n :: rest =>
    match weaken (Typing.operandMask signatures place) n params with
    | (n, params, some fault) => (n :: rest, params, some fault)
    | (n, params, none) =>
      let (rest, params, fault) := weakenAll signatures (place + 1) rest params
      (n :: rest, params, fault)
termination_by 2 * sizeAll nodes + 1
decreasing_by
  all_goals
    have := n.size_pos
    simp only [sizeAll]
    omega

end

/-! ## Strong determination -/

mutual

/-- Makes a tree produce `target`, by the cheapest overload. -/
def strengthen (target : ValueType) (node : Node) (params : List Parameter) :
    Node × List Parameter × Option TypeFault :=
  match node with
  | constant value text =>
    let fault := if (conversionCost? value.type target).isNone then
      some (.constantMismatch text target) else none
    (constant value text, params, fault)
  | parameter id =>
    match narrow params id (TypeMask.of target).sources with
    | .ok params => (parameter id, params, none)
    | .error fault => (parameter id, params, some fault)
  | apply head operands typing =>
    match typing.costs.get? target with
    | none => (apply head operands typing, params, some (.noOverloadProduces target))
    | some cost =>
      match typing.signatures[cost.choice]? with
      | none => (apply head operands typing, params, some (.overloadVanished cost.choice))
      | some signature =>
        let typing := { typing with chosen := some (target, cost.choice) }
        let (operands, params, fault) := strengthenAll signature.args operands params
        (apply head operands typing, params, fault)

/-- Makes operands produce the given types, in turn. -/
def strengthenAll (targets : List ValueType) (nodes : List Node) (params : List Parameter) :
    List Node × List Parameter × Option TypeFault :=
  match nodes, targets with
  | [], _ => ([], params, none)
  | nodes, [] => (nodes, params, none)
  | n :: rest, target :: targets =>
    match strengthen target n params with
    | (n, params, some fault) => (n :: rest, params, some fault)
    | (n, params, none) =>
      let (rest, params, fault) := strengthenAll targets rest params
      (n :: rest, params, fault)

end

/-! ## Applications -/

/-- An application with all overloads of its head, before any determination. -/
def undetermined (head : Head) (operands : List Node) : Node :=
  apply head operands
    { signatures := head.signatures operands.length, costs := CostTable.empty, chosen := none }

/-- An application, weakly determined. The parameters are returned as they are left, also by a
failure. -/
def assemble (head : Head) (operands : List Node) (params : List Parameter) :
    Except TypeFault Node × List Parameter :=
  match (undetermined head operands).weaken TypeMask.all params with
  | (node, params, none) => (.ok node, params)
  | (_, params, some fault) => (.error fault, params)

/-- A unary application. -/
def unary (op : UnaryOp) (operand : Node) (params : List Parameter) :
    Except TypeFault Node × List Parameter :=
  assemble (.unary op) [operand] params

/-- A binary application. -/
def binary (op : BinaryOp) (left right : Node) (params : List Parameter) :
    Except TypeFault Node × List Parameter :=
  assemble (.binary op) [left, right] params

/-- A function call. -/
def call (f : Function) (args : List Node) (params : List Parameter) :
    Except TypeFault Node × List Parameter :=
  assemble (.call f) args params

end Node

end Formula
