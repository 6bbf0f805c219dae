import CilCompiler.Assembly.Basic
import CilCompiler.Failure

/-!
# Branch schedules

Every distinct branch target of a body is one entry of its schedule, and every entry is one region
that closes right before the instruction at the target. All regions are opened at the start of the
body, inside one loop:

```text
loop                       ;; entered again by jumps backwards
  block                    ;; closes at the last entry
    ...
      block                ;; closes at the first entry
        block              ;; dispatch: goes on where the resume selector says
          local.get selector
          br_table 0 1 .. n-1 n
        end
        <instructions before the first entry>
      end
      <instructions before the second entry>
  ...
  end
end
```

A jump forward leaves the regions up to its target. A jump backwards stores the place of its target
in the resume selector and goes round the loop.

* `Schedule.analyze` collects the targets of a body, or says why it cannot be structured.
* `Cursor` follows the walk over the instructions and knows which regions are still open.
* `Cursor.reach` says how to get to a target from where the walk stands.
-/

namespace CilCompiler

/-- The branch targets of a body, in ascending order and each of them once. -/
structure Schedule where
  targets : List UInt32
  deriving DecidableEq

namespace Schedule

/-! ## Collecting targets -/

/-- Puts a target into an ascending list, unless it is there. -/
def insert (target : UInt32) : List UInt32 → List UInt32
  | [] => [target]
  | t :: ts =>
    if target < t then target :: t :: ts
    else if target = t then t :: ts
    else t :: insert target ts

/-- The targets of one instruction. A jump has to carry one target, a switch a list of them. -/
def targetsOf (i : Instruction) : Except CompileError (List UInt32) :=
  if i.opcode.isBranch then
    match i.operand with
    | .target t => .ok [t]
    | operand => .error (.malformedOperand (.noTarget i.opcode operand))
  else if i.opcode = .switch then
    match i.operand with
    | .targets ts => .ok ts
    | operand => .error (.malformedOperand (.noTarget i.opcode operand))
  else .ok []

/-- Puts the targets of all instructions into an ascending list. -/
def collect (found : List UInt32) : List Instruction → Except CompileError (List UInt32)
  | [] => .ok found
  | i :: is =>
    match targetsOf i with
    | .ok ts => collect (ts.foldl (fun found t => insert t found) found) is
    | .error e => .error e

/-- The first offset that does not exceed the one before it. -/
def firstDescent? : List Instruction → Option UInt32
  | i :: j :: is => if j.offset ≤ i.offset then some j.offset else firstDescent? (j :: is)
  | _ => none

/-- The schedule of a body. Bodies with protected regions have none, nor have bodies whose offsets
do not ascend or that jump to where no instruction stands. -/
def analyze (body : MethodBody) : Except CompileError Schedule :=
  match body.regions with
  | region :: _ => .error (.controlFlow (.exceptionRegion region.tryStart region.tryEnd))
  | [] =>
    match firstDescent? body.instructions with
    | some offset => .error (.controlFlow (.notAscending offset))
    | none =>
      match collect [] body.instructions with
      | .error e => .error e
      | .ok targets =>
        match targets.find? (fun t => !body.instructions.any (·.offset == t)) with
        | some t => .error (.controlFlow (.notAnInstruction t))
        | none => .ok ⟨targets⟩

/-! ## Reading a schedule -/

def size (s : Schedule) : Nat := s.targets.length

/-- The place of a target in the schedule. -/
def position (s : Schedule) (target : UInt32) : Except CompileError Nat :=
  match s.targets.idxOf? target with
  | some i => .ok i
  | none => .error (.controlFlow (.unscheduled target))

end Schedule

/-! ## Walking over a body -/

/-- How to get to a branch target. -/
inductive Reach
  /-- Leave regions up to this label. -/
  | forward (label : Nat)
  /-- Store `resume` in the selector and go round the loop, which has this label. -/
  | backward (resume label : Nat)
  deriving DecidableEq

/-- A place in the walk over a body: the regions before the entry `next` are closed. -/
structure Cursor where
  schedule : Schedule
  next : Nat := 0
  deriving DecidableEq

namespace Cursor

/-- The number of regions that are still open, without the loop. -/
def openRegions (c : Cursor) : Nat := c.schedule.size - c.next

/-- The number of regions that close before the instruction at `offset`. -/
def closing (c : Cursor) (offset : UInt32) : Nat :=
  ((c.schedule.targets.drop c.next).takeWhile (· ≤ offset)).length

/-- Moves to the instruction at `offset`. -/
def advance (c : Cursor) (offset : UInt32) : Cursor :=
  { c with next := c.next + c.closing offset }

/-- How to get from here to a target. -/
def reach (c : Cursor) (target : UInt32) : Except CompileError Reach :=
  match c.schedule.position target with
  | .ok t =>
    if c.next ≤ t then .ok (.forward (t - c.next)) else .ok (.backward (t + 1) c.openRegions)
  | .error e => .error e

end Cursor

end CilCompiler
