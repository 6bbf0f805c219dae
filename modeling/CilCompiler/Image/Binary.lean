import CilCompiler.Image.Basic
import CilCompiler.Wasm.Binary

/-!
# The binary form of an image

The sections for types, imports, functions, exports and code, always all five and in that order.
-/

namespace CilCompiler.Image

open Wasm

/-- The magic number and the version of the format. -/
def header : Bytes :=
  [0x00, 0x61, 0x73, 0x6d, 0x01, 0x00, 0x00, 0x00]

/-- A section behind its number and its size. -/
def sectionBytes (number : UInt8) (content : Bytes) : Bytes :=
  number :: sized content

def signatureBytes (s : Signature) : Bytes :=
  0x60 :: sequence (fun kind => [ValueKind.byte kind]) s.params ++
    sequence (fun kind => [ValueKind.byte kind]) s.result.toList

/-- An import: the names, and what is imported under them. -/
def importBytes (module name : String) (item : Bytes) : Bytes :=
  nameBytes module ++ nameBytes name ++ item

/-- The imports of an image: the memory, the functions and the globals. -/
def imported (image : Image) : List (String × String × Bytes) :=
  (image.memory.module, image.memory.name, 0x02 :: 0x00 :: unsigned image.memory.minimumPages) ::
    image.imports.map (fun f => (f.module, f.name, 0x00 :: unsigned f.type)) ++
    image.globals.map (fun g => (g.module, g.name, [0x03, ValueKind.byte .i32, 0x00]))

def exportBytes (name : String) (index : Nat) : Bytes :=
  nameBytes name ++ 0x00 :: unsigned index

/-- The bytes of a module. -/
def encode (image : Image) : Bytes :=
  header ++
    sectionBytes 1 (sequence signatureBytes image.types) ++
    sectionBytes 2 (sequence (fun (module, name, item) => importBytes module name item)
      image.imported) ++
    sectionBytes 3 (sequence (fun d => unsigned d.type) image.functions) ++
    sectionBytes 7 (sequence (fun (name, index) => exportBytes name index) image.exports) ++
    sectionBytes 10 (sequence (fun d => sized (bodyBytes d.function.locals d.function.body))
      image.functions)

end CilCompiler.Image
