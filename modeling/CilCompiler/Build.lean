import CilCompiler.Lowering.Linking
import CilCompiler.Options

/-!
# Building a module

Every method of an assembly is compiled in the order of declaration. A method may call one that has
not been compiled yet: the call takes the callee's index, and the body comes later.

* `thunk` is the body of a method that only forwards to the host.
* `compileMethod` compiles one method, `build` all of them; `buildWithLog` also tells the events.
-/

namespace CilCompiler

open Wasm (Op Signature)

/-! ## Thunks -/

/-- Calls the invoker with a handle, the number of arguments and the arguments, filled up with
zeros. -/
def thunkOps (signature : Signature) (handle invoker : Nat) : List Op :=
  let argc := signature.params.length
  [.globalGet handle, .const (Int32.ofNat argc)] ++
    (List.range argc).map .localGet ++
    List.replicate (Tables.maxInteropArgs - argc) (.const 0) ++
    [.call invoker] ++ (if signature.result.isNone then [.drop] else []) ++ [.close]

/-- The body of the method `name`, known to the host as `identifier`. -/
def thunk (name identifier : String) (signature : Signature) : Build (List Op) := do
  if signature.params.length > Tables.maxInteropArgs then
    throw (.arityExceeded name signature.params.length Tables.maxInteropArgs)
  else
    match (← get).tables.invoker with
    | none => throw (.unresolvedImport identifier)
    | some invoker =>
      let handle ← Build.global (Handle.methodHandle identifier)
      return thunkOps signature handle invoker

/-! ## Methods -/

/-- The locals and the operators of a method. -/
def compileBody (a : Assembly) (o : Options) (fullName : String) (signature : Signature)
    (m : MethodDef) : Build (List Op × SlotTable) := do
  let slots := SlotTable.ofParams signature.params
  if o.isInterop fullName then
    Build.report (.compilingThunk fullName)
    return (← thunk fullName (Handle.qualified a.name fullName) signature, slots)
  else
    Build.report (.compilingMethod fullName signature)
    match m.body with
    | some body => (lowerBody a o.headerSize signature.result.isSome body).run slots
    | none => return (epilogue signature.result.isSome, slots)

/-- Compiles a method of `t`. -/
def compileMethod (a : Assembly) (o : Options) (t : TypeDef) (m : MethodDef) : Build Unit := do
  let fullName := (m.ref t.name).fullName
  let _ ← Build.reserve fullName
  let signature ← Build.ofExcept (methodSignature m)
  let (body, slots) ← compileBody a o fullName signature m
  Build.report (.compiledBody fullName body)
  let index ← Build.define
    { name := fullName, signature, locals := slots.locals, body,
      exportName := o.exportName m.isPublic fullName }
  Build.report (.definedFunction fullName index)

/-! ## Modules -/

/-- The full names of all methods. -/
def Assembly.methodNames (a : Assembly) : List String :=
  a.methods.map fun (t, m) => (m.ref t.name).fullName

/-- The state before the first method: the imports are declared, and methods that are to be
forwarded but do not exist are told. -/
def BuildState.start (a : Assembly) (o : Options) : BuildState :=
  { tables := Tables.ofBridge o.bridge (!o.interopMethods.isEmpty)
    log := (o.interopMethods.filter (!a.methodNames.contains ·)).toArray.map .interopNotFound }

/-- Compiles methods one after the other, up to the first failure. -/
def compileMethods (a : Assembly) (o : Options) :
    List (TypeDef × MethodDef) → BuildState → Except Failure Unit × BuildState
  | [], s => (.ok (), s)
  | (t, m) :: rest, s =>
    match (compileMethod a o t m).run s with
    | (.ok _, s) => compileMethods a o rest s
    | (.error e, s) => (.error ⟨[.compilingMethod (m.ref t.name).fullName], .compile e⟩, s)

/-- Builds a module and tells what happened. -/
def buildWithLog (a : Assembly) (o : Options) : Except Failure Image × Array Event :=
  match compileMethods a o a.methods (BuildState.start a o) with
  | (.error f, s) => (.error f, s.log)
  | (.ok _, s) =>
    match s.tables.finish with
    | .ok image => (.ok image, s.log)
    | .error e => (.error (Failure.ofError e), s.log)

/-- Builds a module. -/
def build (a : Assembly) (o : Options) : Except Failure Image :=
  (buildWithLog a o).1

end CilCompiler
