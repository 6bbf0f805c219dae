import CilCompiler.Wasm.Op

/-!
# Validation of bodies

The standard algorithm of WebAssembly: a stack of operand kinds beside a stack of open regions. Once
control cannot get further, the rest of a region may take any operands it likes.

* `Typing` gives the kinds of everything that a body can name.
* `Checker.step` checks one operator, which has to stand in a region.
* `isValidBody` checks a body from its first operator to the one that closes it.
-/

namespace CilCompiler.Wasm

/-- What a body can name. -/
structure Typing where
  locals : List ValueKind
  functions : List Signature
  globals : Nat

/-- An open region, or the body itself. -/
structure Region where
  /-- The kinds that a jump to the region's label takes. -/
  label : List ValueKind
  /-- The kinds that the region leaves. -/
  results : List ValueKind
  /-- The number of operands below the region. -/
  height : Nat
  /-- Whether control cannot get to this point. -/
  dead : Bool
  deriving DecidableEq

/-- The operands, topmost first, and the open regions, innermost first. -/
structure Checker where
  operands : List ValueKind
  regions : List Region
  deriving DecidableEq

namespace Checker

/-! ## Operands -/

def push (c : Checker) (kind : ValueKind) : Checker :=
  { c with operands := kind :: c.operands }

/-- Takes an operand of some kind off the innermost region. -/
def popAny (c : Checker) : Option Checker :=
  match c.regions with
  | [] => none
  | region :: _ =>
    if c.operands.length ≤ region.height then
      if region.dead then some c else none
    else some { c with operands := c.operands.tail }

/-- Takes an operand of the given kind off the innermost region. -/
def pop (kind : ValueKind) (c : Checker) : Option Checker :=
  match c.regions with
  | [] => none
  | region :: _ =>
    if c.operands.length ≤ region.height then
      if region.dead then some c else none
    else if c.operands.head? = some kind then some { c with operands := c.operands.tail }
    else none

/-- Takes operands of the given kinds, the last one first. -/
def popAll (kinds : List ValueKind) (c : Checker) : Option Checker :=
  kinds.reverse.foldlM (fun c kind => c.pop kind) c

def pushAll (kinds : List ValueKind) (c : Checker) : Checker :=
  kinds.foldl push c

/-! ## Regions -/

/-- Opens a region without label, parameters and results. -/
def enter (c : Checker) : Checker :=
  { c with regions := ⟨[], [], c.operands.length, false⟩ :: c.regions }

/-- Closes the innermost region: its results have to be there and nothing else. -/
def leave (c : Checker) : Option Checker :=
  match c.regions with
  | [] => none
  | region :: outer =>
    match c.popAll region.results with
    | none => none
    | some c =>
      if c.operands.length = region.height then
        some ({ c with regions := outer }.pushAll region.results)
      else none

/-- Control does not get beyond this point of the innermost region. -/
def stop (c : Checker) : Option Checker :=
  match c.regions with
  | [] => none
  | region :: outer =>
    some { operands := c.operands.drop (c.operands.length - region.height)
           regions := { region with dead := true } :: outer }

/-- The kinds that a jump to a label takes. -/
def labelKinds (c : Checker) (label : Nat) : Option (List ValueKind) :=
  (c.regions[label]?).map Region.label

/-- The kinds that the body returns. -/
def returned (c : Checker) : Option (List ValueKind) :=
  c.regions.getLast?.map Region.results

/-! ## Operators -/

/-- Whether the operands fit a jump that takes the given number of them to a label. -/
def fits (c : Checker) (arity label : Nat) : Bool :=
  match c.labelKinds label with
  | some kinds => kinds.length = arity && (c.popAll kinds).isSome
  | none => false

/-- What an operator does in a region. -/
def operate (typing : Typing) (c : Checker) : Op → Option Checker
  | .block | .loop => some c.enter
  | .close => c.leave
  | .br label => do
    let kinds ← c.labelKinds label
    (← c.popAll kinds).stop
  | .brIf label => do
    let c ← c.pop .i32
    let kinds ← c.labelKinds label
    return (← c.popAll kinds).pushAll kinds
  | .brTable labels otherwise => do
    let c ← c.pop .i32
    let kinds ← c.labelKinds otherwise
    if labels.all (c.fits kinds.length) then (← c.popAll kinds).stop else none
  | .ret => do
    let kinds ← c.returned
    (← c.popAll kinds).stop
  | .unreachable => c.stop
  | .drop => c.popAny
  | .call function => do
    let signature ← typing.functions[function]?
    return (← c.popAll signature.params).pushAll signature.result.toList
  | .localGet slot => do
    return c.push (← typing.locals[slot]?)
  | .localSet slot => do
    let kind ← typing.locals[slot]?
    c.pop kind
  | .globalGet global => if global < typing.globals then some (c.push .i32) else none
  | .const _ => some (c.push .i32)
  | .load _ => do return (← c.pop .i32).push .i32
  | .store _ => do (← c.pop .i32).pop .i32
  | .eqz | .extend8 | .extend16 => do return (← c.pop .i32).push .i32
  | .bin _ => do return (← (← c.pop .i32).pop .i32).push .i32

/-- Checks one operator; after the one that closes the body there is no other. -/
def step (typing : Typing) (c : Checker) (op : Op) : Option Checker :=
  if c.regions.isEmpty then none else c.operate typing op

/-- Checks operators in order. -/
def run (typing : Typing) (c : Checker) (ops : List Op) : Option Checker :=
  ops.foldlM (step typing) c

/-- The start of a body with the given result. -/
def start (result : Option ValueKind) : Checker :=
  { operands := [], regions := [⟨result.toList, result.toList, 0, false⟩] }

end Checker

/-- Whether a body checks, and its last operator closes it. -/
def isValidBody (typing : Typing) (result : Option ValueKind) (ops : List Op) : Bool :=
  match Checker.run typing (Checker.start result) ops with
  | some c => c.regions.isEmpty
  | none => false

end CilCompiler.Wasm
