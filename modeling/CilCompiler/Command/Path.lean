/-!
# Paths

A path is a text whose parts are separated by slashes. Empty parts and dots name nothing, but a dot
in front is kept.

* `parts` splits a path, `trimEnd` drops what names nothing from its end.
* `parent` is the directory that a path lies in, `ancestors` the chain of directories up from one.
* `withExtension` and `join` make paths from others.
-/

namespace CilCompiler.Command.Path

/-- Cuts at every slash. -/
def split : List Char → List (List Char)
  | [] => [[]]
  | c :: cs =>
    if c = '/' then [] :: split cs
    else
      match split cs with
      | [] => [[c]]
      | part :: rest => (c :: part) :: rest

/-- The parts of a path. -/
def parts (path : String) : List String :=
  (split path.toList).map String.ofList

def ofParts (ps : List String) : String :=
  "/".intercalate ps

/-- Whether a part stands for the directory before it. -/
def isVoid (part : String) : Bool := part = "" || part = "."

/-- Drops the parts at the end that name nothing. -/
def trimEnd : List String → List String
  | [] => []
  | first :: rest => first :: (rest.reverse.dropWhile isVoid).reverse

/-- The directory that a path lies in; it is empty for a path of one part. -/
def parent (path : String) : String :=
  ofParts (trimEnd (trimEnd (parts path)).dropLast)

/-- A directory and those that it lies in, innermost first. -/
def ancestors (directory : String) : List String :=
  let ps := parts directory
  let upTo := (List.range ps.length).reverse.map fun i => ps.take (i + 1)
  (upTo.filter fun qs => trimEnd qs = qs).map ofParts

/-- What comes before the last dot of a file name, unless the only dot is in front. -/
def stem (name : String) : String :=
  match (name.toList.reverse.dropWhile (· ≠ '.')).tail.reverse with
  | [] => name
  | cs => String.ofList cs

/-- Gives the file that a path names another extension. The old one is cut off behind its dot; two
dots that are left name the directory above, which has no extension and stays as it is. -/
def withExtension (path extension : String) : String :=
  let ps := parts path
  let base := stem (ps.getLastD "")
  let name := if base = "." then ".." else base ++ "." ++ extension
  ofParts (ps.dropLast ++ [name])

/-- Whether a path starts at the root. -/
def isAbsolute (path : String) : Bool :=
  path.toList.head? = some '/'

/-- Whether a path can only be that of a directory. -/
def endsWithSlash (path : String) : Bool :=
  path.toList.getLast? = some '/'

/-- A path from inside a directory. One that starts at the root stays as it is. -/
def join (directory path : String) : String :=
  if isAbsolute path then path
  else if endsWithSlash directory then directory ++ path
  else directory ++ "/" ++ path

end CilCompiler.Command.Path
