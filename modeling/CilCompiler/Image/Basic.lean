import CilCompiler.Host.Bridge

/-!
# Module images

An image is a finished module: its tables in index order, with every function complete.

* `Function` is a compiled function, `Definition` adds the index of its type.
* `GlobalImport.lateBound` is the global of that name, from the module that all globals come from.
* `Image.exports` lists the exported functions by index.
-/

namespace CilCompiler

open Wasm (ValueKind Signature Op)

/-- An imported function. -/
structure FunctionImport where
  module : String
  name : String
  type : Nat
  deriving DecidableEq

/-- An imported global, which holds a constant word. -/
structure GlobalImport where
  module : String
  name : String
  deriving DecidableEq

/-- The late-bound global of that name. -/
def GlobalImport.lateBound (name : String) : GlobalImport := ⟨"global", name⟩

/-- A compiled function. -/
structure Function where
  /-- The full name of its method. -/
  name : String
  signature : Signature
  /-- The locals behind the parameters, in index order. -/
  locals : List ValueKind
  /-- The operators, with the one that closes the body. -/
  body : List Op
  exportName : Option String
  deriving DecidableEq

/-- A function with the index of its signature in the type table. -/
structure Definition where
  type : Nat
  function : Function
  deriving DecidableEq

structure Image where
  types : List Signature
  memory : Host.MemoryImport
  imports : List FunctionImport
  globals : List GlobalImport
  functions : List Definition
  deriving DecidableEq

namespace Image

/-- The exported names with their function indices, which count the imports first. -/
def exports (image : Image) : List (String × Nat) :=
  image.functions.zipIdx.filterMap fun (d, i) =>
    d.function.exportName.map (·, image.imports.length + i)

end Image

end CilCompiler
