import CilCompiler.Document.Value

/-!
# Reading a document

The format is TOML.

* `value` reads a value, `assignment` a key with its value, `header` the line above a section.
* `parse` reads a whole document.
-/

namespace CilCompiler.Document

/-- How deep values and keys nest. -/
def deepest : Nat := 79

/-! ## Keys -/

def isBareKeyChar (c : Char) : Bool := c.isAlphanum || c = '_' || c = '-'

/-- One part of a key. -/
def simpleKey : Reader String := do
  if ← accept '"' then return String.ofList (← lineText '"')
  else if ← accept '\'' then return String.ofList (← lineText '\'')
  else
    let name ← takeWhile isBareKeyChar
    if name = [] then refuse else return String.ofList name

/-- A key with the path before it. -/
def dottedKey : Reader (List String × String) := do
  let (path, key) ← loop (fun path => do
    blanks
    let name ← simpleKey
    blanks
    if ← accept '.' then return .more (name :: path)
    else return .done (List.reverse path, name)) []
  if path.length < deepest then return (path, key) else refuse

/-- A key and its value, which `value` reads. -/
def assignment (value : Reader Value) : Reader Assignment := do
  let (path, key) ← dottedKey
  expect '='
  blanks
  return { path, key, value := ← value }

/-! ## Values -/

/-- The rest of a list. -/
def listItems (value : Reader Value) : Reader (List Value) :=
  loop (fun seen => do
    spacing
    if ← accept ']' then return .done seen.reverse
    else
      let item ← value
      spacing
      if ← accept ',' then return .more (item :: seen)
      else
        expect ']'
        return .done (item :: seen).reverse) []

/-- The rest of a table that is written as a value. -/
def tableItems (value : Reader Value) : Reader (List Assignment) := do
  blanks
  if ← accept '\x7d' then return []
  else
    loop (fun seen => do
      let item ← assignment value
      blanks
      if ← accept ',' then return .more (item :: seen)
      else
        expect '\x7d'
        return .done (item :: seen).reverse) []

/-- A moment, a fraction or a whole number. The longer forms begin as the shorter ones do. -/
def numeric : Reader Value :=
  orElse (Value.moment <$> moment) (orElse (Value.fraction <$> fraction) (Value.number <$> number))

/-- A value that holds no others. -/
def scalar : Reader Value := do
  if ← accept '"' then return .text (← quotedText '"')
  else if ← accept '\'' then return .text (← quotedText '\'')
  else if ← acceptAll ['t', 'r', 'u', 'e'] then return .truth true
  else if ← acceptAll ['f', 'a', 'l', 's', 'e'] then return .truth false
  else numeric

/-- A value with at most `depth` levels of lists and tables. -/
def value : (depth : Nat) → Reader Value
  | 0 => scalar
  | depth + 1 => do
    if ← accept '[' then return .list .written (← listItems (value depth))
    else if ← accept '\x7b' then
      match Entries.assignAll [] (← tableItems (value depth)) with
      | some entries => return .table .written entries
      | none => refuse
    else scalar

/-! ## Documents -/

/-- A header, behind its first bracket. -/
def header : Reader Header := do
  if ← accept '[' then
    let (path, key) ← dottedKey
    expect ']'
    expect ']'
    return .element path key
  else
    let (path, key) ← dottedKey
    expect ']'
    return .table path key

/-- Adds a line to the last section, which stands first. -/
def addToLast (a : Assignment) : List Section → List Section
  | [] => []
  | s :: rest => { s with assignments := s.assignments ++ [a] } :: rest

/-- The sections of a document. -/
def sections : Reader (List Section) :=
  loop (fun seen => do
    blanks
    match ← peek with
    | none => return .done seen.reverse
    | some c =>
      if c = '#' ∨ c = '\n' ∨ c = '\r' then
        lineEnd
        return .more seen
      else if ← accept '[' then
        let h ← header
        lineEnd
        return .more (⟨h, []⟩ :: seen)
      else
        let a ← assignment (value deepest)
        lineEnd
        return .more (addToLast a seen)) [⟨.top, []⟩]

/-- The table that a document describes, if it is one. A byte order mark may stand first. -/
def parse (document : String) : Option Entries :=
  let cs := match document.toList with
    | '\uFEFF' :: cs => cs
    | cs => cs
  match sections cs with
  | .ok (found, _) => found.foldlM Entries.addSection []
  | .error () => none

end CilCompiler.Document
