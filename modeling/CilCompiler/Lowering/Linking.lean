import CilCompiler.Image.Tables
import CilCompiler.Lowering.Event
import CilCompiler.Lowering.Schedule
import CilCompiler.Lowering.Selection
import CilCompiler.Lowering.SlotTable

/-!
# Linking

Linking turns the names of a sequence into indices. Names that are new get the next free index of
their table, so the order of the steps decides the numbers.

* `Build` carries the module tables and the events of a build, `Linker` also the slots of one
  function.
* `Emit.link` writes one step of a sequence as operators.
* `lowerBody` writes a whole body.
-/

namespace CilCompiler

open Wasm (Op)

/-! ## The state of a build -/

structure BuildState where
  tables : Tables
  /-- What has happened so far. -/
  log : Array Event := #[]

/-- A step of a build. Tables and events stay as they are when it fails. -/
abbrev Build := ExceptT CompileError (StateM BuildState)

namespace Build

/-- Runs a step. -/
def run {α : Type} (step : Build α) (s : BuildState) : Except CompileError α × BuildState :=
  StateT.run (ExceptT.run step) s

def report (event : Event) : Build Unit :=
  modify fun s => { s with log := s.log.push event }

def ofExcept {α : Type} : Except CompileError α → Build α
  | .ok x => pure x
  | .error e => throw e

/-- The index of a function of the module. Its first request is an event. -/
def reserve (name : String) : Build Nat := do
  let s ← get
  let (index, tables) := s.tables.reserve name
  set { s with tables }
  unless s.tables.functions.contains name do
    report (.reservedFunction name index)
  return index

/-- The index of a late-bound global. Its first request is an event. -/
def global (name : String) : Build Nat := do
  let s ← get
  let (index, tables) := s.tables.global name
  set { s with tables }
  unless s.tables.globals.contains name do
    report (.boundGlobal name index)
  return index

/-- Completes a function. -/
def define (f : Function) : Build Nat := do
  let s ← get
  let (outcome, tables) := s.tables.define f
  set { s with tables }
  ofExcept outcome

/-- The function that a call in `a` means: one of the module, or one that the host provides. -/
def callIndex (a : Assembly) (m : MethodRef) : Build Nat := do
  match a.findMethod m with
  | some _ => reserve m.fullName
  | none => ofExcept ((← get).tables.importIndex (Handle.methodIdentifier a.name m))

end Build

/-! ## The state of a function -/

abbrev Linker := StateT SlotTable Build

/-- The index of a slot that holds a word. -/
def Linker.slot (slot : Slot) : Linker Nat := do
  let (answer, table) := (← get).resolve slot .i32
  set table
  Build.ofExcept answer

/-- A jump to a label. -/
def jump (conditional : Bool) (label : Nat) : Op :=
  if conditional then .brIf label else .br label

/-- The operators of one step. A jump backwards sets the resume selector first, also when it is not
taken: the selector is read at the head of the loop only. -/
def Emit.link (a : Assembly) (cursor : Cursor) : Emit → Linker (List Op)
  | .op operator => return [operator]
  | .load slot => return [.localGet (← Linker.slot slot)]
  | .store slot => return [.localSet (← Linker.slot slot)]
  | .branch target conditional => do
    match ← Build.ofExcept (cursor.reach target) with
    | .forward label => return [jump conditional label]
    | .backward resume label =>
      let selector ← Linker.slot .resumeSelector
      return [.const (Int32.ofNat resume), .localSet selector, jump conditional label]
  | .handle name => return [.globalGet (← Build.global name)]
  | .allocate => return [.call Tables.allocator]
  | .call m => return [.call (← Build.callIndex a m)]

/-- The operators of a sequence. -/
def linkAll (a : Assembly) (cursor : Cursor) : List Emit → Linker (List Op)
  | [] => return []
  | e :: es => do
    let ops ← e.link a cursor
    return ops ++ (← linkAll a cursor es)

/-! ## Bodies -/

/-- The end of a body. What would return a value is not reached. -/
def epilogue (hasResult : Bool) : List Op :=
  if hasResult then [.unreachable, .close] else [.close]

/-- The dispatch at the head of the loop, for a schedule of `size` entries: entry `n` is reached by
leaving `n + 1` regions. Without entries there is none. -/
def dispatch (size : Nat) : Linker (List Op) := do
  if size = 0 then return []
  else
    let selector ← Linker.slot .resumeSelector
    return [.block, .localGet selector, .brTable (List.range size) size, .close]

/-- The operators of the instructions from the cursor on, with the ends of the regions. -/
def lowerInstructions (a : Assembly) (headerSize : UInt32) (cursor : Cursor) :
    List Instruction → Linker (List Op)
  | [] => return List.replicate cursor.openRegions .close
  | i :: is => do
    let closing := cursor.closing i.offset
    let cursor := cursor.advance i.offset
    Build.report (.lowering i cursor.openRegions)
    let sequence ← Build.ofExcept (select a headerSize i)
    let ops ← linkAll a cursor sequence
    let rest ← lowerInstructions a headerSize cursor is
    return List.replicate closing .close ++ ops ++ rest

/-- The operators of a body. -/
def lowerBody (a : Assembly) (headerSize : UInt32) (hasResult : Bool) (body : MethodBody) :
    Linker (List Op) := do
  if body.instructions.isEmpty then return epilogue hasResult
  else
    let schedule ← Build.ofExcept (Schedule.analyze body)
    let dispatch ← dispatch schedule.size
    let code ← lowerInstructions a headerSize { schedule } body.instructions
    return .loop :: List.replicate schedule.size .block ++ dispatch ++ code ++ [.close] ++
      epilogue hasResult

end CilCompiler
