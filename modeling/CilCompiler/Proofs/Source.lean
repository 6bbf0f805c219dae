import CilCompiler.Proofs.Execution
import CilCompiler.Lowering.Schedule
import CilCompiler.Lowering.Selection

/-!
# What instructions do

The meaning of a method body, on its own terms: a machine on words that goes from one offset to
another. Nothing in it depends on how instructions are compiled.

* `Arithmetic`, `Unary` and `Comparison` are the operations, said of the integers that words stand
  for.
* `Effect` is what one instruction does; `Opcode.effect` is the table.
* `Host` interprets what a body cannot do alone: calls, allocation, handles and memory.
* `Source.step` is one step of a body; `Source.outcome?` runs a body.
-/

namespace CilCompiler

/-! ## Operations on words -/

inductive Arithmetic
  | add
  | sub
  | mul
  | div
  | divUn
  | rem
  | remUn
  | and
  | or
  | xor
  | shl
  | shr
  | shrUn
  deriving DecidableEq

inductive Unary
  | neg
  | not
  | convI1
  | convI2
  | convU1
  | convU2
  deriving DecidableEq

inductive Comparison
  | eq
  | ne
  | lt
  | ltUn
  | gt
  | gtUn
  | le
  | leUn
  | ge
  | geUn
  deriving DecidableEq

/-- The result of an operation, or none if it traps. A division traps if the divisor is zero or the
quotient is too large for a word. Distances of shifts count modulo the size of a word. -/
def Arithmetic.apply (x y : Word) : Arithmetic → Option Word
  | .add => some (.ofInt 32 (x.toInt + y.toInt))
  | .sub => some (.ofInt 32 (x.toInt - y.toInt))
  | .mul => some (.ofInt 32 (x.toInt * y.toInt))
  | .div =>
    if y.toInt = 0 ∨ x.toInt.tdiv y.toInt = 0x80000000 then none
    else some (.ofInt 32 (x.toInt.tdiv y.toInt))
  | .divUn => if y.toNat = 0 then none else some (.ofNat 32 (x.toNat / y.toNat))
  | .rem => if y.toInt = 0 then none else some (.ofInt 32 (x.toInt.tmod y.toInt))
  | .remUn => if y.toNat = 0 then none else some (.ofNat 32 (x.toNat % y.toNat))
  | .and => some (x &&& y)
  | .or => some (x ||| y)
  | .xor => some (x ^^^ y)
  | .shl => some (.ofNat 32 (x.toNat <<< (y.toNat % 32)))
  | .shr => some (.ofInt 32 (x.toInt >>> (y.toNat % 32)))
  | .shrUn => some (.ofNat 32 (x.toNat >>> (y.toNat % 32)))

def Unary.apply (x : Word) : Unary → Word
  | .neg => .ofInt 32 (-x.toInt)
  | .not => ~~~x
  | .convI1 => .ofInt 32 (x.toInt.bmod 0x100)
  | .convI2 => .ofInt 32 (x.toInt.bmod 0x10000)
  | .convU1 => .ofNat 32 (x.toNat % 0x100)
  | .convU2 => .ofNat 32 (x.toNat % 0x10000)

def Comparison.holds (x y : Word) : Comparison → Bool
  | .eq => x == y
  | .ne => x != y
  | .lt => x.toInt < y.toInt
  | .ltUn => x.toNat < y.toNat
  | .gt => y.toInt < x.toInt
  | .gtUn => y.toNat < x.toNat
  | .le => x.toInt ≤ y.toInt
  | .leUn => x.toNat ≤ y.toNat
  | .ge => y.toInt ≤ x.toInt
  | .geUn => y.toNat ≤ x.toNat

/-! ## Effects -/

inductive Effect
  | skip
  | push (value : Int32)
  | loadArg (index : UInt16)
  | storeArg (index : UInt16)
  | loadLocal (index : UInt16)
  | storeLocal (index : UInt16)
  | duplicate
  | pop
  | ret
  | arithmetic (operation : Arithmetic)
  | unary (operation : Unary)
  | compare (comparison : Comparison)
  | jump (target : UInt32)
  /-- Jumps if the word on top is true, or if it is false. -/
  | jumpIf (expected : Bool) (target : UInt32)
  /-- Jumps if a comparison of the two words on top holds. -/
  | jumpWhen (comparison : Comparison) (target : UInt32)
  | switch (targets : List UInt32)
  | call (method : MethodRef)
  | construct (constructor : MethodRef)
  /-- Fields are known by their place in an object. -/
  | loadField (offset : UInt32)
  | storeField (offset : UInt32)
  deriving DecidableEq

namespace Operand

def int32? : Operand → Option Int32
  | .int32 value => some value
  | _ => none

def arg? : Operand → Option UInt16
  | .arg index => some index
  | _ => none

def loc? : Operand → Option UInt16
  | .loc index => some index
  | _ => none

def target? : Operand → Option UInt32
  | .target offset => some offset
  | _ => none

def targets? : Operand → Option (List UInt32)
  | .targets offsets => some offsets
  | _ => none

def method? : Operand → Option MethodRef
  | .method ref => some ref
  | _ => none

def field? : Operand → Option FieldRef
  | .field ref => some ref
  | _ => none

end Operand

/-- What an opcode does with its operand; none for what has no meaning here. Calls to virtual
methods mean the method that they name. -/
def Opcode.effect (a : Assembly) (headerSize : UInt32) (x : Operand) : Opcode → Option Effect
  | .nop | .convI4 | .convU4 | .convI | .convU => some .skip
  | .ldarg0 => some (.loadArg 0)
  | .ldarg1 => some (.loadArg 1)
  | .ldarg2 => some (.loadArg 2)
  | .ldarg3 => some (.loadArg 3)
  | .ldargS | .ldarg => x.arg?.map .loadArg
  | .stargS | .starg => x.arg?.map .storeArg
  | .ldloc0 => some (.loadLocal 0)
  | .ldloc1 => some (.loadLocal 1)
  | .ldloc2 => some (.loadLocal 2)
  | .ldloc3 => some (.loadLocal 3)
  | .ldlocS | .ldloc => x.loc?.map .loadLocal
  | .stloc0 => some (.storeLocal 0)
  | .stloc1 => some (.storeLocal 1)
  | .stloc2 => some (.storeLocal 2)
  | .stloc3 => some (.storeLocal 3)
  | .stlocS | .stloc => x.loc?.map .storeLocal
  | .ldcI4M1 => some (.push (-1))
  | .ldcI4_0 => some (.push 0)
  | .ldcI4_1 => some (.push 1)
  | .ldcI4_2 => some (.push 2)
  | .ldcI4_3 => some (.push 3)
  | .ldcI4_4 => some (.push 4)
  | .ldcI4_5 => some (.push 5)
  | .ldcI4_6 => some (.push 6)
  | .ldcI4_7 => some (.push 7)
  | .ldcI4_8 => some (.push 8)
  | .ldcI4S | .ldcI4 => x.int32?.map .push
  | .dup => some .duplicate
  | .pop => some .pop
  | .ret => some .ret
  | .add => some (.arithmetic .add)
  | .sub => some (.arithmetic .sub)
  | .mul => some (.arithmetic .mul)
  | .div => some (.arithmetic .div)
  | .divUn => some (.arithmetic .divUn)
  | .rem => some (.arithmetic .rem)
  | .remUn => some (.arithmetic .remUn)
  | .and => some (.arithmetic .and)
  | .or => some (.arithmetic .or)
  | .xor => some (.arithmetic .xor)
  | .shl => some (.arithmetic .shl)
  | .shr => some (.arithmetic .shr)
  | .shrUn => some (.arithmetic .shrUn)
  | .neg => some (.unary .neg)
  | .not => some (.unary .not)
  | .convI1 => some (.unary .convI1)
  | .convI2 => some (.unary .convI2)
  | .convU1 => some (.unary .convU1)
  | .convU2 => some (.unary .convU2)
  | .ceq => some (.compare .eq)
  | .cgt => some (.compare .gt)
  | .cgtUn => some (.compare .gtUn)
  | .clt => some (.compare .lt)
  | .cltUn => some (.compare .ltUn)
  | .brS | .br => x.target?.map .jump
  | .brtrueS | .brtrue => x.target?.map (.jumpIf true)
  | .brfalseS | .brfalse => x.target?.map (.jumpIf false)
  | .beqS | .beq => x.target?.map (.jumpWhen .eq)
  | .bneUnS | .bneUn => x.target?.map (.jumpWhen .ne)
  | .bgeS | .bge => x.target?.map (.jumpWhen .ge)
  | .bgeUnS | .bgeUn => x.target?.map (.jumpWhen .geUn)
  | .bgtS | .bgt => x.target?.map (.jumpWhen .gt)
  | .bgtUnS | .bgtUn => x.target?.map (.jumpWhen .gtUn)
  | .bleS | .ble => x.target?.map (.jumpWhen .le)
  | .bleUnS | .bleUn => x.target?.map (.jumpWhen .leUn)
  | .bltS | .blt => x.target?.map (.jumpWhen .lt)
  | .bltUnS | .bltUn => x.target?.map (.jumpWhen .ltUn)
  | .switch => x.targets?.map .switch
  | .call | .callvirt => x.method?.map .call
  | .newobj => x.method?.map .construct
  | .ldfld => x.field?.bind fun f => (fieldOffset a headerSize f).toOption.map .loadField
  | .stfld => x.field?.bind fun f => (fieldOffset a headerSize f).toOption.map .storeField
  | _ => none

/-! ## Runs -/

/-- How many words a call to a method takes, the receiver included. -/
def MethodRef.arity (m : MethodRef) : Nat :=
  if m.hasThis then m.params.length + 1 else m.params.length

/-- An interpretation of what lies outside of a body, on a state of its own. What may trap gives
none when it does. -/
structure Host (σ : Type) where
  call : MethodRef → List Word → σ → Option (Option Word × σ)
  /-- The address of a new object of the type with that handle. -/
  allocate : Word → σ → Option (Word × σ)
  handle : String → σ → Word
  load : Nat → σ → Option Word
  store : Nat → Word → σ → Option σ

/-- A body with all that its instructions refer to. -/
structure Source (σ : Type) where
  assembly : Assembly
  headerSize : UInt32
  hasResult : Bool
  body : MethodBody
  host : Host σ

namespace Source

variable {σ : Type}

/-- The state of a run. The code is the instructions from the next one on. -/
structure State (σ : Type) where
  code : List Instruction
  args : List Word
  locals : UInt16 → Word
  stack : List Word
  host : σ

/-- A run starts at the first instruction, with locals that are zero. -/
def start (p : Source σ) (args : List Word) (host : σ) : State σ :=
  ⟨p.body.instructions, args, fun _ => 0, [], host⟩

/-- The instructions from an offset on. -/
def codeAt (p : Source σ) (offset : UInt32) : List Instruction :=
  p.body.instructions.dropWhile (·.offset != offset)

/-- Goes on with the word on top of the stack. -/
def State.pop (s : State σ) (k : Word → State σ → Progress (State σ) (Outcome σ)) :
    Progress (State σ) (Outcome σ) :=
  match s.stack with
  | x :: stack => k x { s with stack }
  | [] => .stuck

/-- Goes on with `n` arguments from the stack. -/
def State.popArgs (s : State σ) (n : Nat)
    (k : List Word → State σ → Progress (State σ) (Outcome σ)) :
    Progress (State σ) (Outcome σ) :=
  match CilCompiler.popArgs n s.stack with
  | some (args, stack) => k args { s with stack }
  | none => .stuck

def State.push (s : State σ) (x : Word) : State σ :=
  { s with stack := x :: s.stack }

/-- Calls a method. A result is left on the stack. -/
def invoke (p : Source σ) (m : MethodRef) (args : List Word) (s : State σ)
    (k : State σ → Progress (State σ) (Outcome σ)) : Progress (State σ) (Outcome σ) :=
  match p.host.call m args s.host with
  | some (result, host) => k { s with stack := result.toList ++ s.stack, host }
  | none => .done (.trapped s.host)

/-- Performs the effect of an instruction in a state that stands behind it. -/
def perform (p : Source σ) (s : State σ) : Effect → Progress (State σ) (Outcome σ)
  | .skip => .next s
  | .push value => .next (s.push value.toBitVec)
  | .loadArg n =>
    match s.args[n.toNat]? with
    | some x => .next (s.push x)
    | none => .stuck
  | .storeArg n =>
    s.pop fun x s =>
      if n.toNat < s.args.length then .next { s with args := s.args.set n.toNat x } else .stuck
  | .loadLocal n => .next (s.push (s.locals n))
  | .storeLocal n =>
    s.pop fun x s => .next { s with locals := fun k => if k = n then x else s.locals k }
  | .duplicate => s.pop fun x s => .next ((s.push x).push x)
  | .pop => s.pop fun _ s => .next s
  | .ret =>
    if p.hasResult then s.pop fun x s => .done (.returned (some x) s.host)
    else .done (.returned none s.host)
  | .arithmetic o =>
    s.pop fun y s => s.pop fun x s =>
      match o.apply x y with
      | some z => .next (s.push z)
      | none => .done (.trapped s.host)
  | .unary o => s.pop fun x s => .next (s.push (o.apply x))
  | .compare o => s.pop fun y s => s.pop fun x s => .next (s.push (truth (o.holds x y)))
  | .jump target => .next { s with code := p.codeAt target }
  | .jumpIf expected target =>
    s.pop fun x s =>
      .next (if (x != 0) = expected then { s with code := p.codeAt target } else s)
  | .jumpWhen o target =>
    s.pop fun y s => s.pop fun x s =>
      .next (if o.holds x y then { s with code := p.codeAt target } else s)
  | .switch targets =>
    s.pop fun x s =>
      match targets[x.toNat]? with
      | some target => .next { s with code := p.codeAt target }
      | none => .next s
  | .call m =>
    -- the constructor of the root class only discards its receiver
    if m.fullName = objectConstructor then s.pop fun _ s => .next s
    else s.popArgs m.arity fun args s => p.invoke m args s .next
  | .construct m =>
    s.popArgs m.params.length fun args s =>
      let type := p.host.handle (Handle.typeHandle p.assembly.name m.declaring) s.host
      match p.host.allocate type s.host with
      | none => .done (.trapped s.host)
      | some (object, host) =>
        let s := { s with host }
        if m.fullName = objectConstructor then .next (s.push object)
        -- a result, which constructors do not have, would stay below the object
        else p.invoke m (object :: args) s fun s => .next (s.push object)
  | .loadField offset =>
    s.pop fun x s =>
      match p.host.load (x.toNat + offset.toNat) s.host with
      | some y => .next (s.push y)
      | none => .done (.trapped s.host)
  | .storeField offset =>
    s.pop fun y s => s.pop fun x s =>
      match p.host.store (x.toNat + offset.toNat) y s.host with
      | some host => .next { s with host }
      | none => .done (.trapped s.host)

/-- One step of a body. A run that goes beyond the last instruction is stuck. -/
def step (p : Source σ) (s : State σ) : Progress (State σ) (Outcome σ) :=
  match s.code with
  | [] => .stuck
  | i :: is =>
    match i.opcode.effect p.assembly p.headerSize i.operand with
    | some effect => p.perform { s with code := is } effect
    | none => .stuck

/-- The stack is empty whenever a run from `s` arrives at an offset of the schedule. -/
def ArrivesEmpty (p : Source σ) (schedule : Schedule) (s : State σ) : Prop :=
  ∀ t i is, Reaches p.step s t → t.code = i :: is → i.offset ∈ schedule.targets → t.stack = []

/-! ## Running -/

/-- Whether the stack is empty if the next instruction is a target. -/
def arrivesEmptyHere (schedule : Schedule) (s : State σ) : Bool :=
  match s.code with
  | i :: _ => !schedule.targets.contains i.offset || s.stack.isEmpty
  | [] => true

/-- The outcome of a run of at most `n` steps that arrives with an empty stack at all targets. -/
def outcome? (p : Source σ) (schedule : Schedule) : Nat → State σ → Option (Outcome σ)
  | 0, _ => none
  | n + 1, s =>
    if arrivesEmptyHere schedule s then
      match p.step s with
      | .next s' => p.outcome? schedule n s'
      | .done o => some o
      | .stuck => none
    else none

theorem arrivesEmpty_of_step {p : Source σ} {schedule : Schedule} {s : State σ}
    (hhere : arrivesEmptyHere schedule s)
    (hnext : ∀ s', p.step s = .next s' → p.ArrivesEmpty schedule s') :
    p.ArrivesEmpty schedule s := by
  intro t i is hreach hcode htarget
  rcases Relation.ReflTransGen.cases_head hreach with rfl | ⟨s', hstep, hrest⟩
  · simpa [arrivesEmptyHere, hcode, htarget] using hhere
  · exact hnext s' hstep t i is hrest hcode htarget

/-- Both what a run ends with and how it arrives at targets can be found out by running it. -/
theorem ends_of_outcome? {p : Source σ} {schedule : Schedule} {n : Nat} {s : State σ}
    {o : Outcome σ} (h : p.outcome? schedule n s = some o) :
    Ends p.step s o ∧ p.ArrivesEmpty schedule s := by
  induction n generalizing s with
  | zero =>
      cases h
  | succ n ih =>
      simp only [outcome?] at h
      by_cases hhere : arrivesEmptyHere schedule s
      · rw [if_pos hhere] at h
        cases hstep : p.step s with
        | next s' =>
            rw [hstep] at h
            rcases ih h with ⟨hends, hempty⟩
            refine ⟨.of_reaches (.one hstep) hends, arrivesEmpty_of_step hhere ?_⟩
            intro s'' hstep'
            cases hstep.symm.trans hstep'
            exact hempty
        | done o' =>
            rw [hstep] at h
            cases h
            refine ⟨.of_done hstep, arrivesEmpty_of_step hhere ?_⟩
            intro s'' hstep'
            cases hstep.symm.trans hstep'
        | stuck =>
            rw [hstep] at h
            cases h
      · rw [if_neg hhere] at h
        cases h

end Source

end CilCompiler
