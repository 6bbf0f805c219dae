import CilCompiler.Document.Moment

/-!
# Values and tables of a document

A document is a tree of tables. The text names a table more than once as it goes along, and how a
table was introduced decides whether it may still be extended.

* `Value` is what a key holds, `Origin` how a table or a list came to be.
* `Entries.assign` sets one dotted key.
* `Entries.addSection` adds what stands below one header.
-/

namespace CilCompiler.Document

/-- How a table or a list was introduced. -/
inductive Origin
  /-- Written as a value; complete from the start. -/
  | written
  /-- Introduced by a header of its own. -/
  | headed
  /-- Introduced by the header of a table inside it. -/
  | implied
  /-- Introduced by a dotted key. -/
  | dotted
  deriving DecidableEq

inductive Value
  | text (content : String)
  | number (value : Int)
  | fraction (value : Binary64)
  | truth (value : Bool)
  | moment (value : Moment)
  | list (origin : Origin) (items : List Value)
  | table (origin : Origin) (entries : List (String × Value))

/-- The keys of a table with what they hold. -/
abbrev Entries := List (String × Value)

/-- One line of a table: a key, the dotted path before it, and the value. -/
structure Assignment where
  path : List String
  key : String
  value : Value

/-- What stands above a group of assignments. -/
inductive Header
  | top
  | table (path : List String) (key : String)
  /-- Opens one more table of a list. -/
  | element (path : List String) (key : String)

structure Section where
  header : Header
  assignments : List Assignment

namespace Entries

/-- Gives a key that is present another value. -/
def replace (key : String) (value : Value) (entries : Entries) : Entries :=
  entries.map fun e => if e.1 = key then (key, value) else e

/-- Adds a key, which must be new. -/
def addNew (key : String) (value : Value) (entries : Entries) : Option Entries :=
  if (entries.lookup key).isSome then none else some (entries ++ [(key, value)])

/-- Whether a path of the kind `via` may lead through a table. A complete table cannot be entered,
and dotted keys stay inside tables that have no header. -/
def mayEnter (via : Origin) : Origin → Bool
  | .written => false
  | .headed => via ≠ .dotted
  | .implied | .dotted => true

/-- Changes the table at the end of a path. Tables that are missing on the way are introduced as
`via`, and a list that has a header is entered through its last table. -/
def descend (via : Origin) (change : Origin → Entries → Option Entries) :
    (path : List String) → Origin → Entries → Option Entries
  | [], origin, entries => change origin entries
  | key :: path, _, entries =>
    match entries.lookup key with
    | none => do
      let inner ← descend via change path via []
      addNew key (.table via inner) entries
    | some (.table origin inner) =>
      if mayEnter via origin then do
        let inner ← descend via change path origin inner
        some (replace key (.table origin inner) entries)
      else none
    | some (.list .headed items) =>
      match items.getLast? with
      | some (.table origin inner) => do
        let inner ← descend via change path origin inner
        some (replace key (.list .headed (items.dropLast ++ [.table origin inner])) entries)
      | _ => none
    | some _ => none

/-- Sets a key of a table. A dotted path must end in a table that dotted keys introduced. -/
def assign (entries : Entries) (a : Assignment) : Option Entries :=
  descend .dotted (fun origin inner =>
    if a.path ≠ [] ∧ origin ≠ .dotted then none else addNew a.key a.value inner)
    a.path .headed entries

def assignAll (entries : Entries) (assignments : List Assignment) : Option Entries :=
  assignments.foldlM assign entries

/-- Gives the table `key` its header. -/
def openTable (key : String) (assignments : List Assignment) (entries : Entries) :
    Option Entries :=
  match entries.lookup key with
  | none => do
    addNew key (.table .headed (← assignAll [] assignments)) entries
  | some (.table .implied inner) => do
    some (replace key (.table .headed (← assignAll inner assignments)) entries)
  | some _ => none

/-- Adds a table to the list `key`. -/
def openElement (key : String) (assignments : List Assignment) (entries : Entries) :
    Option Entries :=
  match entries.lookup key with
  | none => do
    addNew key (.list .headed [.table .headed (← assignAll [] assignments)]) entries
  | some (.list .headed items) => do
    let element := Value.table .headed (← assignAll [] assignments)
    some (replace key (.list .headed (items ++ [element])) entries)
  | some _ => none

/-- Adds what stands below one header to the table of the whole document. -/
def addSection (document : Entries) (s : Section) : Option Entries :=
  match s.header with
  | .top => assignAll document s.assignments
  | .table path key =>
    descend .implied (fun _ => openTable key s.assignments) path .headed document
  | .element path key =>
    descend .implied (fun _ => openElement key s.assignments) path .headed document

end Entries

end CilCompiler.Document
