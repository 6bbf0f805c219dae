import CilCompiler.Lowering.Handle
import CilCompiler.Lowering.Layout

/-!
# Instruction selection

Both sides are stack machines, so an instruction becomes a short fixed sequence. Selection writes it
with names in place of indices; what the names mean is settled by linking.

* `Action` sorts the opcodes by what is done with them; `Opcode.action` is the table.
* `Emit` is an operator that may hold a name.
* `select` is the sequence of an instruction. It depends on nothing but the instruction, the
  assembly and the size of object headers.
-/

namespace CilCompiler

open Wasm (Op BinOp)

/-! ## Actions -/

/-- What is done with an opcode. -/
inductive Action
  /-- A fixed sequence of operators. -/
  | fixed (ops : List Op)
  | load (slot : Slot)
  | store (slot : Slot)
  /-- The slot is the operand. -/
  | loadArg
  | storeArg
  | loadLocal
  | storeLocal
  /-- The constant is the operand. -/
  | constant
  | duplicate
  /-- A jump behind the operators of its test. -/
  | branch (test : List Op) (conditional : Bool)
  | switch
  | call
  | construct
  | loadField
  | storeField
  | unsupported
  deriving DecidableEq

namespace Action

/-- The action of an operator on two words. -/
def binary (op : BinOp) : Action := .fixed [.bin op]

/-- A jump that is taken when a comparison holds. -/
def compare (op : BinOp) : Action := .branch [.bin op] true

/-- An operator on the top word and a constant. -/
def withConstant (value : Int32) (op : BinOp) : Action := .fixed [.const value, .bin op]

end Action

/-- The action of every opcode. -/
def Opcode.action : Opcode → Action
  | .nop => .fixed []
  | .ldarg0 => .load (.arg 0)
  | .ldarg1 => .load (.arg 1)
  | .ldarg2 => .load (.arg 2)
  | .ldarg3 => .load (.arg 3)
  | .ldargS | .ldarg => .loadArg
  | .stargS | .starg => .storeArg
  | .ldloc0 => .load (.loc 0)
  | .ldloc1 => .load (.loc 1)
  | .ldloc2 => .load (.loc 2)
  | .ldloc3 => .load (.loc 3)
  | .stloc0 => .store (.loc 0)
  | .stloc1 => .store (.loc 1)
  | .stloc2 => .store (.loc 2)
  | .stloc3 => .store (.loc 3)
  | .ldlocS | .ldloc => .loadLocal
  | .stlocS | .stloc => .storeLocal
  | .ldcI4M1 => .fixed [.const (-1)]
  | .ldcI4_0 => .fixed [.const 0]
  | .ldcI4_1 => .fixed [.const 1]
  | .ldcI4_2 => .fixed [.const 2]
  | .ldcI4_3 => .fixed [.const 3]
  | .ldcI4_4 => .fixed [.const 4]
  | .ldcI4_5 => .fixed [.const 5]
  | .ldcI4_6 => .fixed [.const 6]
  | .ldcI4_7 => .fixed [.const 7]
  | .ldcI4_8 => .fixed [.const 8]
  | .ldcI4S | .ldcI4 => .constant
  | .dup => .duplicate
  | .pop => .fixed [.drop]
  | .ret => .fixed [.ret]
  | .add => .binary .add
  | .sub => .binary .sub
  | .mul => .binary .mul
  | .div => .binary .divS
  | .divUn => .binary .divU
  | .rem => .binary .remS
  | .remUn => .binary .remU
  | .and => .binary .and
  | .or => .binary .or
  | .xor => .binary .xor
  | .shl => .binary .shl
  | .shr => .binary .shrS
  | .shrUn => .binary .shrU
  | .neg => .withConstant (-1) .mul
  | .not => .withConstant (-1) .xor
  | .ceq => .binary .eq
  | .cgt => .binary .gtS
  | .cgtUn => .binary .gtU
  | .clt => .binary .ltS
  | .cltUn => .binary .ltU
  | .convI4 | .convU4 | .convI | .convU => .fixed []
  | .convI1 => .fixed [.extend8]
  | .convI2 => .fixed [.extend16]
  | .convU1 => .withConstant 0xff .and
  | .convU2 => .withConstant 0xffff .and
  | .brS | .br => .branch [] false
  | .brtrueS | .brtrue => .branch [] true
  | .brfalseS | .brfalse => .branch [.eqz] true
  | .beqS | .beq => .compare .eq
  | .bneUnS | .bneUn => .compare .ne
  | .bgeS | .bge => .compare .geS
  | .bgeUnS | .bgeUn => .compare .geU
  | .bgtS | .bgt => .compare .gtS
  | .bgtUnS | .bgtUn => .compare .gtU
  | .bleS | .ble => .compare .leS
  | .bleUnS | .bleUn => .compare .leU
  | .bltS | .blt => .compare .ltS
  | .bltUnS | .bltUn => .compare .ltU
  | .switch => .switch
  | .call | .callvirt => .call
  | .newobj => .construct
  | .ldfld => .loadField
  | .stfld => .storeField
  | _ => .unsupported

/-! ## Sequences with names -/

/-- An operator, or a step that names what it works on. -/
inductive Emit
  | op (op : Op)
  | load (slot : Slot)
  | store (slot : Slot)
  | branch (target : UInt32) (conditional : Bool)
  /-- Reads a handle. -/
  | handle (name : String)
  /-- Calls the allocator. -/
  | allocate
  | call (method : MethodRef)
  deriving DecidableEq

/-- The constructor of the root of all classes, which does nothing. -/
def objectConstructor : String := "System.Void System.Object::.ctor()"

/-- A switch compares the value with every number in turn. -/
def switchSequence (targets : List UInt32) : List Emit :=
  .store .switchValue :: targets.zipIdx.flatMap fun (target, i) =>
    [.load .switchValue, .op (.const (Int32.ofNat i)), .op (.bin .eq), .branch target true]

/-- The slots of the arguments of a constructor. They are counted in sixteen bits. -/
def constructorArgs (m : MethodRef) : List Slot :=
  (List.range (m.params.length % UInt16.size)).map fun i => .constructorArg i.toUInt16

def callSequence (m : MethodRef) : List Emit :=
  if m.fullName = objectConstructor then [.op .drop] else [.call m]

/-- Parks the arguments, allocates the object, and calls the constructor with the address before
the arguments. The address stays on the stack. -/
def constructSequence (home : String) (m : MethodRef) : List Emit :=
  let args := constructorArgs m
  args.reverse.map .store ++
    [.handle (Handle.typeHandle home m.declaring), .allocate, .store .newObject] ++
    (if m.fullName = objectConstructor then []
     else .load .newObject :: args.map .load ++ [.call m]) ++
    [.load .newObject]

/-- The sequence of an instruction. -/
def select (a : Assembly) (headerSize : UInt32) (i : Instruction) :
    Except CompileError (List Emit) :=
  match i.opcode.action, i.operand with
  | .fixed ops, _ => .ok (ops.map .op)
  | .load slot, _ => .ok [.load slot]
  | .store slot, _ => .ok [.store slot]
  | .loadArg, .arg index => .ok [.load (.arg index)]
  | .storeArg, .arg index => .ok [.store (.arg index)]
  | .loadLocal, .loc index => .ok [.load (.loc index)]
  | .storeLocal, .loc index => .ok [.store (.loc index)]
  | .constant, .int32 value => .ok [.op (.const value)]
  | .duplicate, _ => .ok [.store .duplicate, .load .duplicate, .load .duplicate]
  | .branch test conditional, .target t => .ok (test.map .op ++ [.branch t conditional])
  | .switch, .targets ts => .ok (switchSequence ts)
  | .call, .method m => .ok (callSequence m)
  | .construct, .method m => .ok (constructSequence a.name m)
  | .loadField, .field f => do return [.op (.load (← fieldOffset a headerSize f))]
  | .storeField, .field f => do return [.op (.store (← fieldOffset a headerSize f))]
  | .unsupported, _ => .error (.unsupportedInstruction i.opcode)
  | _, _ => .error (.malformedOperand (.wrongShape i.opcode i.offset))

end CilCompiler
