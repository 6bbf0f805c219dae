import CilCompiler.Command.Run

/-!
# The command line

Reads the arguments, runs on the files of the system and prints why nothing came of it, if so.
-/

namespace CilCompiler.Command

/-- The fault of a file that an error of the system tells of. -/
def faultOf (e : IO.Error) : FileFault :=
  match e with
  | .noFileOrDirectory .. => .notFound
  | .alreadyExists .. => .exists
  | .inappropriateType _ 20 _ => .notDirectory
  | .inappropriateType _ 21 _ => .isDirectory
  | e => .other (toString e)

def attempt {α : Type} (action : IO α) : IO (Except FileFault α) := do
  try return .ok (← action)
  catch e => return .error (faultOf e)

/-- The files of the system. -/
def systemFiles : Files IO where
  read path := attempt do return (← IO.FS.readBinFile path).toList
  isDirectory path := do
    match ← attempt (IO.FS.Handle.mk (path ++ "/.") .read) with
    | .ok _ => return true
    | .error _ => return false
  createDirectory path := attempt (IO.FS.createDir path)
  write path bytes := attempt (IO.FS.writeBinFile path ⟨bytes.toArray⟩)

def usage : String :=
  "Usage: cil-compiler [OPTIONS] <INPUT>\n\n" ++
  "Arguments:\n" ++
  "  <INPUT>                Input IL listing (.il)\n\n" ++
  "Options:\n" ++
  "  -o, --output <OUTPUT>  Output file, or a directory to write <assembly>.wasm into\n" ++
  "      --bridge <BRIDGE>  Host bridge manifest (TOML)\n" ++
  "      --header-size <N>  Object header length in bytes [default: 8]\n" ++
  "      --export <EXPORT>  Which methods to export: public, all, none [default: public]\n" ++
  "      --interop <METHOD> Compile this method (full name) as an interop thunk; repeatable\n" ++
  "      --no-validate      Skip validation of the emitted module\n" ++
  "  -v, --verbose...       Increase log verbosity\n" ++
  "  -q, --quiet            Only log errors\n" ++
  "  -h, --help             Print help\n" ++
  "  -V, --version          Print version\n"

def Refusal.message : Refusal → String
  | .missingInput => "the input was not provided"
  | .unknownArgument => "unexpected argument found"
  | .invalidValue => "a value is missing or not possible"
  | .outOfRange => "a value is not in range"
  | .conflict => "arguments cannot be used together"
  | .unneededValue => "a value was given to a flag that takes none"
  | .helpAsked => usage
  | .versionAsked => "cil-compiler 0.1.0"

end CilCompiler.Command

open CilCompiler.Command in
/-- Exits with 2 when the arguments are refused and with 1 when the run fails. -/
def main (words : List String) : IO UInt32 := do
  match Arguments.parse words with
  | .error .helpAsked =>
    IO.print Refusal.helpAsked.message
    return 0
  | .error .versionAsked =>
    IO.println Refusal.versionAsked.message
    return 0
  | .error refusal =>
    IO.eprintln ("error: " ++ refusal.message ++ "\n\n" ++ usage)
    return 2
  | .ok arguments =>
    match ← (run systemFiles arguments).run with
    | .ok () => return 0
    | .error failure =>
      IO.eprintln ("Error: " ++ failure.message)
      return 1
