import CilCompiler.Failure
import CilCompiler.Image.Basic
import CilCompiler.Numbering

/-!
# Module tables

The index spaces of a module while it is built. Imports are all declared at the start, so they hold
the lowest function indices; the functions of the module follow in the order in which they are
first asked for, whether by a call or by their own definition.

* `Tables.ofBridge` declares the imports.
* `intern`, `reserve`, `global` and `importIndex` give out indices.
* `define` completes a function, `finish` the module.
-/

namespace CilCompiler

open Wasm (ValueKind Signature)

structure Tables where
  memory : Host.MemoryImport
  imports : List FunctionImport := []
  /-- The methods that the host provides, by identifier. -/
  hostMethods : List (String × Nat) := []
  /-- The function that invokes methods by handle, if it is imported. -/
  invoker : Option Nat := none
  types : Numbering Signature := {}
  /-- The names of the late-bound globals. -/
  globals : Numbering String := {}
  /-- The names of the module's own functions. -/
  functions : Numbering String := {}
  /-- The functions completed so far, in the order of their completion. -/
  definitions : List Definition := []
  deriving DecidableEq

namespace Tables

/-- The number of arguments that the invoker takes, receiver included. -/
def maxInteropArgs : Nat := 4

/-! ## Indices -/

/-- The index of a signature in the type table. -/
def intern (t : Tables) (signature : Signature) : Nat × Tables :=
  let (i, types) := t.types.request signature
  (i, { t with types })

/-- The index of a late-bound global. -/
def global (t : Tables) (name : String) : Nat × Tables :=
  let (i, globals) := t.globals.request name
  (i, { t with globals })

/-- The index of a function of the module. -/
def reserve (t : Tables) (name : String) : Nat × Tables :=
  let (i, functions) := t.functions.request name
  (t.imports.length + i, { t with functions })

/-- The index of the allocator, which is the first import. -/
def allocator : Nat := 0

/-- The index of a method that the host provides. -/
def importIndex (t : Tables) (identifier : String) : Except CompileError Nat :=
  match t.hostMethods.lookup identifier with
  | some i => .ok i
  | none => .error (.unresolvedImport identifier)

/-! ## Imports -/

/-- Appends an imported function. -/
def declare (t : Tables) (module name : String) (signature : Signature) : Tables :=
  let (type, t) := t.intern signature
  { t with imports := t.imports ++ [⟨module, name, type⟩] }

/-- Declares a method that the host provides; of equal names the first one counts. -/
def declareMethod (t : Tables) (d : Host.ImportDecl) : Tables :=
  match t.hostMethods.lookup d.name with
  | some _ => t
  | none =>
    { t.declare d.module d.name d.signature with
      hostMethods := t.hostMethods ++ [(d.name, t.imports.length)] }

/-- The invoker takes a handle, a count and the arguments. -/
def invokerSignature : Signature :=
  ⟨List.replicate (2 + maxInteropArgs) .i32, some .i32⟩

/-- Declares everything that a bridge provides. The invoker is imported only on request. -/
def ofBridge (bridge : Host.Bridge) (withInterop : Bool) : Tables :=
  let t : Tables := { memory := bridge.memory }
  let t := t.declare bridge.allocator.module bridge.allocator.name ⟨[.i32], some .i32⟩
  let t := t.declare bridge.logger.module bridge.logger.name ⟨[.i32], none⟩
  let t :=
    if withInterop then
      { t.declare bridge.interop.module bridge.interop.name invokerSignature with
        invoker := some t.imports.length }
    else t
  bridge.imports.foldl declareMethod t

/-! ## Functions -/

def isDefined (t : Tables) (name : String) : Bool :=
  t.definitions.any (·.function.name == name)

/-- Completes the function of that name. Its name and its signature get their indices even if the
function turns out to be complete already. -/
def define (t : Tables) (f : Function) : Except CompileError Nat × Tables :=
  let (index, t) := t.reserve f.name
  let (type, t) := t.intern f.signature
  if t.isDefined f.name then (.error (.duplicateFunction f.name), t)
  else (.ok index, { t with definitions := t.definitions ++ [⟨type, f⟩] })

/-- The completed function of that name. -/
def definition (t : Tables) (name : String) : Except CompileError Definition :=
  match t.definitions.find? (·.function.name == name) with
  | some d => .ok d
  | none => .error (.missingBody name)

/-- The module, if every function that was asked for is complete. -/
def finish (t : Tables) : Except CompileError Image := do
  let functions ← t.functions.keys.mapM t.definition
  return { types := t.types.keys, memory := t.memory, imports := t.imports,
           globals := t.globals.keys.map GlobalImport.lateBound, functions }

end Tables

end CilCompiler
