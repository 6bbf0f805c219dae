import CilCompiler.Image.Basic
import CilCompiler.Wasm.Binary
import CilCompiler.Wasm.Validation

/-!
# Validation of images

A module is valid if it keeps the limits of an engine, exports no name twice, and all its bodies
check.
-/

namespace CilCompiler.Image

open Wasm (Signature Typing)

/-- The limits that engines put on a module. -/
structure Limits where
  memoryPages : Nat := 65536
  params : Nat := 1000
  locals : Nat := 50000
  nameBytes : Nat := 100000
  bodyBytes : Nat := 7654321

/-- The limits that are checked. -/
def limits : Limits := {}

/-- The signatures of the functions by index: those of the imports, then those of the module. -/
def functionSignatures (image : Image) : List Signature :=
  (image.imports.map FunctionImport.type ++ image.functions.map Definition.type).filterMap
    (image.types[·]?)

/-- All names that stand in the module. -/
def names (image : Image) : List String :=
  [image.memory.module, image.memory.name] ++
    image.imports.flatMap (fun f => [f.module, f.name]) ++
    image.globals.flatMap (fun g => [g.module, g.name]) ++ image.exports.map Prod.fst

/-- Whether the body of a function checks and keeps the limits. -/
def isValidFunction (image : Image) (functions : List Signature)
    (f : Function) : Bool :=
  let locals := f.signature.params ++ f.locals
  locals.length ≤ limits.locals &&
    (Wasm.bodyBytes f.locals f.body).length ≤ limits.bodyBytes &&
    Wasm.isValidBody { locals, functions, globals := image.globals.length } f.signature.result
      f.body

/-- Whether a module is valid. -/
def isValid (image : Image) : Bool :=
  let functions := image.functionSignatures
  image.memory.minimumPages ≤ limits.memoryPages &&
    image.types.all (·.params.length ≤ limits.params) &&
    image.names.all (·.utf8ByteSize ≤ limits.nameBytes) &&
    (image.exports.map Prod.fst).Nodup &&
    image.functions.all fun d => isValidFunction image functions d.function

end CilCompiler.Image
