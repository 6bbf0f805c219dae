import CilCompiler.Command.Arguments
import CilCompiler.Command.Files
import CilCompiler.Compile
import CilCompiler.Host.Manifest

/-!
# Running the command

A run reads the manifest and the listing, compiles, and only then changes anything.

* `prepare` does all that only reads.
* `store` makes the missing directories and writes the module.
* `run` is the one after the other.
-/

namespace CilCompiler.Command

open Wasm (Bytes)

variable {m : Type → Type} [Monad m]

/-- Puts the outcome of a file operation into its context. -/
def inContext {α : Type} (context : Context) (outcome : m (Except FileFault α)) :
    ExceptT Failure m α := do
  match ← (outcome : m (Except FileFault α)) with
  | .ok x => return x
  | .error fault => throw ⟨[context], .file fault⟩

/-- The text of a file, which must be in UTF-8. -/
def readText (files : Files m) (path : String) : ExceptT Failure m String := do
  let bytes ← inContext (.reading path) (files.read path)
  match String.fromUTF8? ⟨bytes.toArray⟩ with
  | some text => return text
  | none => throw ⟨[.reading path], .file .notText⟩

/-- The bridge of a manifest, or the usual one. -/
def loadBridge (files : Files m) : Option String → ExceptT Failure m Host.Bridge
  | none => return {}
  | some path => do
    match Host.Bridge.ofManifest (← readText files path) with
    | .ok bridge => return bridge
    | .error f => throw (f.within (.inFile path))

def Arguments.options (a : Arguments) (bridge : Host.Bridge) : Options where
  headerSize := a.headerSize
  exportPolicy := a.exportPolicy
  interopMethods := a.interopMethods
  bridge := bridge
  validate := a.validate

/-- A compiled module and the assembly that it comes from. -/
structure Artifact where
  assembly : String
  bytes : Bytes
  deriving DecidableEq

/-- Reads and compiles. -/
def prepare (files : Files m) (a : Arguments) : ExceptT Failure m Artifact := do
  let options := a.options (← loadBridge files a.manifest)
  match Listing.parse (← readText files a.input) with
  | .error e => throw ⟨[.inFile a.input], .compile (.malformedListing e)⟩
  | .ok source =>
    match compile source options with
    | .error f => throw f
    | .ok bytes => return ⟨source.name, bytes⟩

/-- Where the module of an assembly goes: beside the listing, to the file that was named, or into
the directory that was named. -/
def outputPath (files : Files m) (a : Arguments) (assembly : String) : m String :=
  match a.output with
  | none => return Path.withExtension a.input "wasm"
  | some out => do
    if (← files.isDirectory out) || Path.endsWithSlash out then
      return Path.join out (assembly ++ ".wasm")
    else return out

/-- Makes the first of a chain of directories, and before it those further up that are missing. -/
def createAll (files : Files m) : List String → m (Except FileFault Unit)
  | [] => return .ok ()
  | directory :: above => do
    match ← files.createDirectory directory with
    | .ok () => return .ok ()
    | .error .notFound =>
      match ← createAll files above with
      | .error fault => return .error fault
      | .ok () => orPresent directory (← files.createDirectory directory)
    | outcome => orPresent directory outcome
where
  /-- A directory that cannot be made may be there already. -/
  orPresent (directory : String) (outcome : Except FileFault Unit) : m (Except FileFault Unit) := do
    match outcome with
    | .ok () => return .ok ()
    | .error fault =>
      if ← files.isDirectory directory then return .ok () else return .error fault

/-- Writes the module to its path. -/
def store (files : Files m) (path : String) (bytes : Bytes) : ExceptT Failure m Unit := do
  let directory := Path.parent path
  unless directory = "" do
    inContext (.creatingDirectory directory) (createAll files (Path.ancestors directory))
  inContext (.writing path) (files.write path bytes)

/-- Carries out a command. -/
def run (files : Files m) (a : Arguments) : ExceptT Failure m Unit := do
  let artifact ← prepare files a
  let path ← ExceptT.lift (outputPath files a artifact.assembly)
  store files path artifact.bytes

end CilCompiler.Command
