import CilCompiler.Assembly.Instruction
import CilCompiler.Listing.Error
import CilCompiler.Lowering.Slot
import CilCompiler.Wasm.Op

/-!
# Failures

Every failure is a cause inside a chain of contexts. The first failure ends the work, and nothing
is produced.

* `CompileError` is what can be wrong with a module, `FileFault` with a file.
* `Cause` joins them, `Context` says during what a cause arose.
* `Failure.message` is the text of the chain.
-/

namespace CilCompiler

open Wasm (ValueKind)

/-! ## What can be wrong with a module -/

/-- Control flow that cannot be structured. -/
inductive FlowFault
  | exceptionRegion (start stop : UInt32)
  | notAscending (offset : UInt32)
  | notAnInstruction (target : UInt32)
  | unscheduled (target : UInt32)
  deriving DecidableEq

/-- An operand that does not fit its instruction. -/
inductive OperandFault
  /-- A jump without a target. -/
  | noTarget (opcode : Opcode) (operand : Operand)
  /-- An operand of another shape than the opcode asks for. -/
  | wrongShape (opcode : Opcode) (offset : UInt32)
  | noSuchArgument (index : UInt16) (count : Nat)
  | staticField (field : FieldRef)
  deriving DecidableEq

inductive CompileError
  | unsupportedInstruction (opcode : Opcode)
  | unsupportedType (type : TypeSig)
  | controlFlow (fault : FlowFault)
  | unresolvedImport (identifier : String)
  | slotConflict (slot : Slot) (existing requested : ValueKind)
  | arityExceeded (method : String) (arity limit : Nat)
  | malformedListing (error : Listing.SyntaxError)
  | unresolvedField (field : FieldRef)
  | malformedOperand (fault : OperandFault)
  | missingBody (name : String)
  | duplicateFunction (name : String)
  /-- The module breaks a rule of the binary format's validation. -/
  | invalidModule
  /-- A field lies beyond the last address of thirty-two bits. It is not a failure that a compiler
  reports: it stands for the panic in the addition that overflows, which stops the whole run. -/
  | offsetOverflow (field : FieldRef)
  deriving DecidableEq

def FlowFault.message : FlowFault → String
  | .exceptionRegion start stop =>
    "exception region " ++ Text.label start ++ ".." ++ Text.label stop ++ " cannot be structured"
  | .notAscending offset => "instruction offsets are not ascending at " ++ Text.label offset
  | .notAnInstruction target =>
    "branch target " ++ Text.label target ++ " is not an instruction offset"
  | .unscheduled target =>
    "branch target " ++ Text.label target ++ " is missing from the schedule"

/-- What an opcode asks for, in words. -/
def OperandKind.request : OperandKind → String
  | .empty => "no operand"
  | .int32 => "an int32 literal"
  | .int64 => "an int64 literal"
  | .float => "a float literal"
  | .string => "a string literal"
  | .arg => "an argument index"
  | .loc => "a local index"
  | .target => "a branch target"
  | .targets => "a target list"
  | .method => "a method reference"
  | .field => "a field reference"
  | .type => "a type"
  | .raw => "a signature"

def OperandFault.message : OperandFault → String
  | .noTarget opcode operand =>
    opcode.mnemonic ++ ": expected branch target(s), found " ++ operand.inspect
  | .wrongShape opcode offset =>
    opcode.mnemonic ++ ": expected " ++ opcode.operandKind.request ++ " at " ++ Text.label offset
  | .noSuchArgument index count =>
    "argument: index " ++ toString index.toNat ++ " is outside the " ++ toString count ++
      " parameter(s) of the method"
  | .staticField field => "ldfld/stfld: " ++ field.fullName ++ " is a static field"

def CompileError.message : CompileError → String
  | .unsupportedInstruction opcode => "unsupported instruction: " ++ opcode.mnemonic
  | .unsupportedType type => "unsupported type: " ++ type.text
  | .controlFlow fault => "control flow error: " ++ fault.message
  | .unresolvedImport identifier =>
    "unresolved import: no host import declared for '" ++ identifier ++ "'"
  | .slotConflict slot existing requested =>
    "slot '" ++ slot.text ++ "' is already allocated as " ++ existing.text ++
      ", cannot re-use it as " ++ requested.text
  | .arityExceeded method arity limit =>
    "method '" ++ method ++ "' takes " ++ toString arity ++
      " arguments, interop bridge accepts at most " ++ toString limit
  | .malformedListing error => error.message
  | .unresolvedField field => "unresolved field: " ++ field.fullName
  | .malformedOperand fault => "malformed operand for " ++ fault.message
  | .missingBody name => "function '" ++ name ++ "' was referenced but never defined"
  | .duplicateFunction name => "function '" ++ name ++ "' is defined more than once"
  | .invalidModule => "emitted module failed validation"
  | .offsetOverflow field => "field offset exceeds 32 bits: " ++ field.fullName

/-! ## What can be wrong with a file -/

inductive FileFault
  | notFound
  | exists
  | notDirectory
  | isDirectory
  | nameTooLong
  /-- The path holds the character that ends paths inside the system. -/
  | zeroInPath
  | notText
  /-- A fault of the system outside the rules of a file tree. -/
  | other (text : String)
  deriving DecidableEq

def FileFault.message : FileFault → String
  | .notFound => "No such file or directory (os error 2)"
  | .exists => "File exists (os error 17)"
  | .notDirectory => "Not a directory (os error 20)"
  | .isDirectory => "Is a directory (os error 21)"
  | .nameTooLong => "File name too long (os error 36)"
  | .zeroInPath => "file name contained an unexpected NUL byte"
  | .notText => "stream did not contain valid UTF-8"
  | .other text => text

/-! ## Failures -/

inductive Cause
  | compile (error : CompileError)
  | manifest
  | file (fault : FileFault)
  deriving DecidableEq

/-- During what a cause arose. -/
inductive Context
  | compilingMethod (fullName : String)
  | compilingAssembly (name : String)
  | parsingListing
  | inFile (path : String)
  | reading (path : String)
  | creatingDirectory (path : String)
  | writing (path : String)
  deriving DecidableEq

structure Failure where
  /-- The contexts, outermost first. -/
  contexts : List Context
  cause : Cause
  deriving DecidableEq

def Cause.message : Cause → String
  | .compile error => error.message
  | .manifest => "failed to parse host bridge manifest"
  | .file fault => fault.message

def Context.message : Context → String
  | .compilingMethod fullName => "compiling method " ++ fullName
  | .compilingAssembly name => "failed to compile assembly " ++ name
  | .parsingListing => "failed to parse IL listing"
  | .inFile path => "in " ++ path
  | .reading path => "failed to read " ++ path
  | .creatingDirectory path => "failed to create directory " ++ path
  | .writing path => "failed to write " ++ path

namespace Failure

/-- The contexts and the cause, outermost first. -/
def message (f : Failure) : String :=
  ": ".intercalate (f.contexts.map Context.message ++ [f.cause.message])

/-- Puts a failure inside one more context. -/
def within (context : Context) (f : Failure) : Failure :=
  { f with contexts := context :: f.contexts }

def ofError (e : CompileError) : Failure := ⟨[], .compile e⟩

end Failure

end CilCompiler
