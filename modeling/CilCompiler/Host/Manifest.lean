import CilCompiler.Document.Grammar
import CilCompiler.Failure
import CilCompiler.Host.Bridge

/-!
# The host-bridge manifest

A manifest is a document that describes a bridge. Parts that it does not name keep their default.

* `Record` gives the fields of a part by name or by place.
* `Bridge.ofManifest` reads a manifest.
-/

namespace CilCompiler.Host

open Document (Value Entries)
open Wasm (ValueKind)

/-- The fields of a part of a manifest: each has a value or is missing. -/
abbrev Record := List (Option Value)

/-- The fields `names` of a table that has no others. -/
def Record.ofEntries (names : List String) (entries : Entries) : Option Record :=
  if entries.all (fun e => names.contains e.1) then some (names.map fun n => entries.lookup n)
  else none

/-- The fields `names` of a part. A list gives them in order. -/
def Record.ofValue (names : List String) : Value → Option Record
  | .table _ entries => ofEntries names entries
  | .list _ items => some ((List.range names.length).map fun i => items[i]?)
  | _ => none

/-- A field that must be there. -/
def required {α : Type} (read : Value → Option α) (field : Option Value) : Option α :=
  field.bind read

/-- A field that has a default. -/
def withDefault {α : Type} (default : α) (read : Value → Option α) : Option Value → Option α
  | none => some default
  | some v => read v

def readText : Value → Option String
  | .text s => some s
  | _ => none

def readNatural : Value → Option Nat
  | .number n => if 0 ≤ n then some n.toNat else none
  | _ => none

def readList {α : Type} (read : Value → Option α) : Value → Option (List α)
  | .list _ items => items.mapM read
  | _ => none

def kindNamed : String → Option ValueKind
  | "i32" => some .i32
  | "i64" => some .i64
  | "f32" => some .f32
  | "f64" => some .f64
  | _ => none

/-- A value kind: its name, or a table in which the name has nothing below it. -/
def readKind : Value → Option ValueKind
  | .text name => kindNamed name
  | .table _ [(name, .table _ [])] => kindNamed name
  | .table _ [(name, .list _ [])] => kindNamed name
  | _ => none

def readMemory (v : Value) : Option MemoryImport := do
  match ← Record.ofValue ["module", "name", "minimum_pages"] v with
  | [module, name, pages] =>
    return ⟨← required readText module, ← required readText name,
      ← withDefault 1 readNatural pages⟩
  | _ => none

def readFunction (v : Value) : Option HostFunction := do
  match ← Record.ofValue ["module", "name"] v with
  | [module, name] => return ⟨← required readText module, ← required readText name⟩
  | _ => none

def readImport (v : Value) : Option ImportDecl := do
  match ← Record.ofValue ["module", "name", "params", "result"] v with
  | [module, name, params, result] =>
    return ⟨← required readText module, ← required readText name,
      ← withDefault [] (readList readKind) params,
      ← withDefault none (fun r => some <$> readKind r) result⟩
  | _ => none

namespace Bridge

/-- The bridge that the entries of a document describe. -/
def ofEntries (entries : Entries) : Option Bridge := do
  let standard : Bridge := {}
  match ← Record.ofEntries ["memory", "allocator", "logger", "interop", "imports"] entries with
  | [memory, allocator, logger, interop, imports] =>
    return {
      memory := ← withDefault standard.memory readMemory memory
      allocator := ← withDefault standard.allocator readFunction allocator
      logger := ← withDefault standard.logger readFunction logger
      interop := ← withDefault standard.interop readFunction interop
      imports := ← withDefault standard.imports (readList readImport) imports }
  | _ => none

/-- The bridge that a manifest describes. -/
def ofManifest (text : String) : Except Failure Bridge :=
  match (Document.parse text).bind ofEntries with
  | some bridge => .ok bridge
  | none => .error ⟨[], .manifest⟩

end Bridge

end CilCompiler.Host
