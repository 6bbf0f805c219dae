import CilCompiler.Build
import CilCompiler.Image.Binary
import CilCompiler.Image.Validation
import CilCompiler.Listing.Declaration

/-!
# Compilation

* `compile` turns an assembly into the bytes of a module.
* `compileListing` starts from the text of a listing.
-/

namespace CilCompiler

/-- The bytes of the module that an assembly becomes. -/
def compile (a : Assembly) (o : Options) : Except Failure Wasm.Bytes :=
  match build a o with
  | .error f => .error (f.within (.compilingAssembly a.name))
  | .ok image =>
    if o.validate && !image.isValid then .error (Failure.ofError .invalidModule)
    else .ok image.encode

/-- The bytes of the module that a listing describes. -/
def compileListing (text : String) (o : Options) : Except Failure Wasm.Bytes :=
  match Listing.parse text with
  | .error e => .error ⟨[.parsingListing], .compile (.malformedListing e)⟩
  | .ok a => compile a o

end CilCompiler
