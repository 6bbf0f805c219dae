import CilCompiler.Assembly.Instruction
import CilCompiler.Wasm.Render

/-!
# Build events

What a build does is told as a list of events, which is kept when the build fails.

* `Event` is what happened; `level`, `message` and `fields` say it in words.
-/

namespace CilCompiler

open Wasm (Signature Op)

inductive Level
  | warn
  | debug
  | trace
  deriving DecidableEq

inductive Event
  | interopNotFound (method : String)
  | reservedFunction (name : String) (index : Nat)
  | boundGlobal (name : String) (index : Nat)
  | compilingThunk (method : String)
  | compilingMethod (method : String) (signature : Signature)
  /-- An instruction is lowered while that many regions are open. -/
  | lowering (instruction : Instruction) (openRegions : Nat)
  | compiledBody (method : String) (body : List Op)
  | definedFunction (method : String) (index : Nat)
  deriving DecidableEq

namespace Event

def level : Event → Level
  | .interopNotFound _ => .warn
  | .lowering _ _ => .trace
  | _ => .debug

def message : Event → String
  | .interopNotFound _ => "interop method not found in module"
  | .reservedFunction _ _ => "reserved function index"
  | .boundGlobal _ _ => "late-bound global"
  | .compilingThunk _ => "compiling interop thunk"
  | .compilingMethod _ _ => "compiling method"
  | .lowering _ _ => "translate"
  | .compiledBody _ body => "body\n" ++ Wasm.render body
  | .definedFunction _ _ => "defined function"

/-- The named values of an event, in order. -/
def fields : Event → List (String × String)
  | .interopNotFound method => [("method", method)]
  | .reservedFunction name index => [("function", name), ("index", toString index)]
  | .boundGlobal name index => [("global", name), ("index", toString index)]
  | .compilingThunk method => [("method", method)]
  | .compilingMethod method signature => [("method", method), ("signature", signature.text)]
  | .lowering instruction openRegions =>
    [("instr", instruction.text), ("open", toString openRegions)]
  | .compiledBody method _ => [("method", method)]
  | .definedFunction method index => [("method", method), ("index", toString index)]

end Event

end CilCompiler
