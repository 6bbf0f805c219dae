import CilCompiler.Failure

/-!
# Slot tables

A slot table gives the slots of a function their local indices. Parameters hold the lowest ones; any
other slot gets the next index when it is first asked for. The kind of a slot never changes.

* `SlotTable.ofParams` numbers the parameters.
* `SlotTable.resolve` answers a request for a slot, with its index or with an error.
-/

namespace CilCompiler

open Wasm (ValueKind)

/-- The index and the kind of a slot. -/
structure Place where
  index : Nat
  kind : ValueKind
  deriving DecidableEq

structure SlotTable where
  paramCount : Nat := 0
  /-- The slots with their places, latest first. -/
  places : List (Slot × Place) := []
  /-- The kinds of the slots behind the parameters, in index order. -/
  locals : List ValueKind := []
  deriving DecidableEq

namespace SlotTable

/-- The parameters from `index` on, in front of those before them. A parameter's number has sixteen
bits, so of two parameters with one number the later one holds it. -/
def placeParams (index : Nat) (placed : List (Slot × Place)) :
    List ValueKind → List (Slot × Place)
  | [] => placed
  | kind :: kinds =>
    placeParams (index + 1) ((.arg index.toUInt16, ⟨index, kind⟩) :: placed) kinds

def ofParams (params : List ValueKind) : SlotTable :=
  { paramCount := params.length, places := placeParams 0 [] params }

def find? (t : SlotTable) (slot : Slot) : Option Place :=
  t.places.lookup slot

/-- Gives a new slot the next index. -/
def allocate (t : SlotTable) (slot : Slot) (kind : ValueKind) : Nat × SlotTable :=
  let index := t.paramCount + t.locals.length
  (index, { t with places := (slot, ⟨index, kind⟩) :: t.places, locals := t.locals ++ [kind] })

/-- The answer to a request for a slot of the given kind, with the table behind it. An argument has
an index only if it is a parameter. -/
def resolve (t : SlotTable) (slot : Slot) (kind : ValueKind) :
    Except CompileError Nat × SlotTable :=
  match t.find? slot with
  | some place =>
    if place.kind = kind then (.ok place.index, t)
    else (.error (.slotConflict slot place.kind kind), t)
  | none =>
    match slot with
    | .arg index => (.error (.malformedOperand (.noSuchArgument index t.paramCount)), t)
    | _ =>
      let (index, t) := t.allocate slot kind
      (.ok index, t)

end SlotTable

end CilCompiler
