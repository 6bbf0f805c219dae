import CilCompiler.Proofs.Execution
import CilCompiler.Wasm.Op

/-!
# What operators do

The meaning of a compiled body: regions are entered and left, and a jump leaves some number of
them. Each region has operands of its own, so that what lies below is out of reach inside of it.

* `BinOp.apply` is the arithmetic of words.
* `behindClose` is the code behind a region that is open.
* `Engine` interprets calls, globals and memory, all by number.
* `Machine.step` is one step of a body.
-/

namespace CilCompiler.Wasm

/-- The result of an operator on two words, or none if it traps. -/
def BinOp.apply (x y : Word) : BinOp → Option Word
  | .add => some (x + y)
  | .sub => some (x - y)
  | .mul => some (x * y)
  | .divS => if y = 0 ∨ (x = .intMin 32 ∧ y = -1) then none else some (x.sdiv y)
  | .divU => if y = 0 then none else some (x / y)
  | .remS => if y = 0 then none else some (x.srem y)
  | .remU => if y = 0 then none else some (x % y)
  | .and => some (x &&& y)
  | .or => some (x ||| y)
  | .xor => some (x ^^^ y)
  | .shl => some (x <<< (y.toNat % 32))
  | .shrS => some (x.sshiftRight (y.toNat % 32))
  | .shrU => some (x >>> (y.toNat % 32))
  | .eq => some (truth (x == y))
  | .ne => some (truth (x != y))
  | .ltS => some (truth (x.slt y))
  | .ltU => some (truth (x.ult y))
  | .gtS => some (truth (y.slt x))
  | .gtU => some (truth (y.ult x))
  | .leS => some (truth (x.sle y))
  | .leU => some (truth (x.ule y))
  | .geS => some (truth (y.sle x))
  | .geU => some (truth (y.ule x))

/-- The code behind the end of a region, for code inside of it and of `d` more regions. -/
def behindClose : Nat → List Op → List Op
  | _, [] => []
  | d, .block :: code => behindClose (d + 1) code
  | d, .loop :: code => behindClose (d + 1) code
  | 0, .close :: code => code
  | d + 1, .close :: code => behindClose d code
  | d, _ :: code => behindClose d code

/-- An interpretation of what lies outside of a body. -/
structure Engine (σ : Type) where
  /-- How many words a function takes. -/
  arity : Nat → Nat
  call : Nat → List Word → σ → Option (Option Word × σ)
  global : Nat → σ → Word
  load : Nat → σ → Option Word
  store : Nat → Word → σ → Option σ

/-- A machine for the bodies of functions with or without a result. -/
structure Machine (σ : Type) where
  engine : Engine σ
  hasResult : Bool

namespace Machine

variable {σ : Type}

/-- An open region: where a jump to it goes on, and the operands that lie below it. -/
structure Label where
  code : List Op
  operands : List Word

/-- The state of a run. The stack holds the operands of the innermost region. -/
structure State (σ : Type) where
  code : List Op
  locals : List Word
  stack : List Word
  labels : List Label
  host : σ

/-- A run starts with the arguments and `extra` more locals that are zero. -/
def start (body : List Op) (args : List Word) (extra : Nat) (host : σ) : State σ :=
  ⟨body, args ++ List.replicate extra 0, [], [], host⟩

/-- Goes on with the operand on top. -/
def State.pop (s : State σ) (k : Word → State σ → Progress (State σ) (Outcome σ)) :
    Progress (State σ) (Outcome σ) :=
  match s.stack with
  | x :: stack => k x { s with stack }
  | [] => .stuck

def State.push (s : State σ) (x : Word) : State σ :=
  { s with stack := x :: s.stack }

/-- Returns from the function. -/
def finish (m : Machine σ) (s : State σ) : Progress (State σ) (Outcome σ) :=
  if m.hasResult then s.pop fun x s => .done (.returned (some x) s.host)
  else .done (.returned none s.host)

/-- Jumps to a label. The outermost one is the function itself. -/
def branch (m : Machine σ) (s : State σ) (n : Nat) : Progress (State σ) (Outcome σ) :=
  match s.labels[n]? with
  | some label =>
    .next { s with code := label.code, stack := label.operands, labels := s.labels.drop (n + 1) }
  | none => if n = s.labels.length then m.finish s else .stuck

/-- Executes an operator in a state that stands behind it. -/
def execute (m : Machine σ) (s : State σ) : Op → Progress (State σ) (Outcome σ)
  | .block =>
    .next { s with stack := [], labels := ⟨behindClose 0 s.code, s.stack⟩ :: s.labels }
  -- a jump to a loop starts it again
  | .loop => .next { s with stack := [], labels := ⟨.loop :: s.code, s.stack⟩ :: s.labels }
  | .close =>
    match s.labels with
    | label :: labels => .next { s with stack := s.stack ++ label.operands, labels }
    | [] => m.finish s
  | .br n => m.branch s n
  | .brIf n => s.pop fun x s => if x = 0 then .next s else m.branch s n
  | .brTable labels otherwise => s.pop fun x s => m.branch s (labels[x.toNat]?.getD otherwise)
  | .ret => m.finish s
  | .unreachable => .done (.trapped s.host)
  | .drop => s.pop fun _ s => .next s
  | .call n =>
    match popArgs (m.engine.arity n) s.stack with
    | some (args, stack) =>
      match m.engine.call n args s.host with
      | some (result, host) => .next { s with stack := result.toList ++ stack, host }
      | none => .done (.trapped s.host)
    | none => .stuck
  | .localGet i =>
    match s.locals[i]? with
    | some x => .next (s.push x)
    | none => .stuck
  | .localSet i =>
    s.pop fun x s =>
      if i < s.locals.length then .next { s with locals := s.locals.set i x } else .stuck
  | .globalGet i => .next (s.push (m.engine.global i s.host))
  | .const value => .next (s.push value.toBitVec)
  | .load offset =>
    s.pop fun x s =>
      match m.engine.load (x.toNat + offset.toNat) s.host with
      | some y => .next (s.push y)
      | none => .done (.trapped s.host)
  | .store offset =>
    s.pop fun y s => s.pop fun x s =>
      match m.engine.store (x.toNat + offset.toNat) y s.host with
      | some host => .next { s with host }
      | none => .done (.trapped s.host)
  | .eqz => s.pop fun x s => .next (s.push (truth (x == 0)))
  | .extend8 => s.pop fun x s => .next (s.push ((x.setWidth 8).signExtend 32))
  | .extend16 => s.pop fun x s => .next (s.push ((x.setWidth 16).signExtend 32))
  | .bin op =>
    s.pop fun y s => s.pop fun x s =>
      match op.apply x y with
      | some z => .next (s.push z)
      | none => .done (.trapped s.host)

/-- One step of a body. -/
def step (m : Machine σ) (s : State σ) : Progress (State σ) (Outcome σ) :=
  match s.code with
  | [] => .stuck
  | op :: code => m.execute { s with code } op

end Machine

end CilCompiler.Wasm
