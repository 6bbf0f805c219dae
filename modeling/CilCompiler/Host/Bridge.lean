import CilCompiler.Wasm.Op

/-!
# The host bridge

What the host provides to a compiled module: a memory, a function that allocates objects, one that
logs, one that invokes methods by handle, and methods bound by name.
-/

namespace CilCompiler.Host

open Wasm (ValueKind Signature)

structure MemoryImport where
  module : String
  name : String
  minimumPages : Nat
  deriving DecidableEq

/-- A host function at a fixed place of the import table. -/
structure HostFunction where
  module : String
  name : String
  deriving DecidableEq

/-- A method that the host provides. Its name is the identifier of the method: the assembly, a bar
and the full name. -/
structure ImportDecl where
  module : String
  name : String
  params : List ValueKind
  result : Option ValueKind
  deriving DecidableEq

def ImportDecl.signature (d : ImportDecl) : Signature :=
  ⟨d.params, d.result⟩

structure Bridge where
  memory : MemoryImport := ⟨"sys", "memory", 1⟩
  /-- Takes a type handle and returns an address. -/
  allocator : HostFunction := ⟨"sys", "object_new"⟩
  /-- Takes a word. -/
  logger : HostFunction := ⟨"sys", "log"⟩
  /-- Takes a method handle, the number of arguments and four arguments, and returns a word. -/
  interop : HostFunction := ⟨"interop", "invoke"⟩
  imports : List ImportDecl :=
    [⟨"static", "System.Console|System.Void System.Console::WriteLine(System.Int32)", [.i32], none⟩]
  deriving DecidableEq

end CilCompiler.Host
