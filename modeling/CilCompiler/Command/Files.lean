import CilCompiler.Command.Path
import CilCompiler.Failure
import CilCompiler.Wasm.Binary

/-!
# Files

* `Files` is what the command asks of a file system.
* `FileTree` is a file system of its own: files and directories, one of which is the working
  directory.
* `FileTree.files` answers the questions of `Files` from a tree.
-/

namespace CilCompiler.Command

open Wasm (Bytes)

/-- Access to files by path. -/
structure Files (m : Type → Type) where
  read (path : String) : m (Except FileFault Bytes)
  isDirectory (path : String) : m Bool
  /-- Makes one directory, in a directory that exists. -/
  createDirectory (path : String) : m (Except FileFault Unit)
  /-- Makes a file or replaces its contents. -/
  write (path : String) (bytes : Bytes) : m (Except FileFault Unit)

inductive Entry
  | directory
  | file (bytes : Bytes)
  deriving DecidableEq

/-- A place in a tree: the names from the root down. -/
abbrev Location := List String

structure FileTree where
  /-- The working directory, where relative paths start. -/
  home : Location := []
  entries : List (Location × Entry) := []
  deriving DecidableEq

namespace FileTree

/-- What stands at a place; the root is a directory. -/
def entry? (t : FileTree) (place : Location) : Option Entry :=
  if place = [] then some .directory else t.entries.lookup place

/-- Puts an entry at a place. -/
def put (t : FileTree) (place : Location) (e : Entry) : FileTree :=
  if (t.entries.lookup place).isSome then
    { t with entries := t.entries.map fun x => if x.1 = place then (place, e) else x }
  else { t with entries := t.entries ++ [(place, e)] }

/-- The longest name of an entry, in bytes. -/
def longestName : Nat := 255

/-- The longest path, in bytes. -/
def longestPath : Nat := 4095

/-- Follows the parts of a path from a place. Every part is looked up in a directory; two dots lead
up, at the root to the root itself. Nothing need stand at the place that is reached. -/
def walk (t : FileTree) : (here : Location) → List String → Except FileFault Location
  | here, [] => .ok here
  | here, part :: rest =>
    match t.entry? here with
    | none => .error .notFound
    | some (.file _) => .error .notDirectory
    | some .directory =>
      if Path.isVoid part then t.walk here rest
      else if part = ".." then t.walk here.dropLast rest
      else if longestName < part.utf8ByteSize then .error .nameTooLong
      else t.walk (here ++ [part]) rest

/-- The place that a path leads to. -/
def locate (t : FileTree) (path : String) : Except FileFault Location :=
  if path.toList.contains '\x00' then .error .zeroInPath
  else if longestPath < path.utf8ByteSize then .error .nameTooLong
  else t.walk (if Path.isAbsolute path then [] else t.home) (Path.parts path)

def read (t : FileTree) (path : String) : Except FileFault Bytes := do
  match t.entry? (← t.locate path) with
  | none => .error .notFound
  | some .directory => .error .isDirectory
  | some (.file bytes) => .ok bytes

def isDirectory (t : FileTree) (path : String) : Bool :=
  match t.locate path with
  | .ok place => t.entry? place = some .directory
  | .error _ => false

def createDirectory (t : FileTree) (path : String) : Except FileFault FileTree := do
  let place ← t.locate path
  match t.entry? place with
  | some _ => .error .exists
  | none => .ok (t.put place .directory)

def write (t : FileTree) (path : String) (bytes : Bytes) : Except FileFault FileTree := do
  let place ← t.locate path
  match t.entry? place with
  | some .directory => .error .isDirectory
  | _ => .ok (t.put place (.file bytes))

/-- Keeps the tree that an operation yields. -/
def keep (outcome : Except FileFault FileTree) : StateM FileTree (Except FileFault Unit) :=
  match outcome with
  | .ok t => do
    set t
    return .ok ()
  | .error e => return .error e

/-- The files of the tree at hand. -/
def files : Files (StateM FileTree) where
  read path := return (← get).read path
  isDirectory path := return (← get).isDirectory path
  createDirectory path := do keep ((← get).createDirectory path)
  write path bytes := do keep ((← get).write path bytes)

/-- The entries that are new since `before` or differ from what stood there. -/
def changesSince (t before : FileTree) : List (Location × Entry) :=
  t.entries.filter fun x => before.entry? x.1 ≠ some x.2

end FileTree

end CilCompiler.Command
