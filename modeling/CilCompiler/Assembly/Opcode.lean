/-!
# Opcodes

Every opcode that a listing can name, with its mnemonic and the shape of its operand.

* `Opcode.all` lists them in the order of the instruction set's table.
* `Opcode.ofMnemonic?` finds an opcode by its name.
* `Opcode.isBranch` tells the jumps that take part in the structuring of a body.
-/

namespace CilCompiler

/-- The shape of the operand that an opcode carries. -/
inductive OperandKind
  | empty
  | int32
  | int64
  | float
  | string
  | arg
  | loc
  | target
  | targets
  | method
  | field
  | type
  /-- The signature of an indirect call, kept as text. -/
  | raw
  deriving DecidableEq

inductive Opcode
  | nop
  | breakpoint
  | ldarg0
  | ldarg1
  | ldarg2
  | ldarg3
  | ldloc0
  | ldloc1
  | ldloc2
  | ldloc3
  | stloc0
  | stloc1
  | stloc2
  | stloc3
  | ldargS
  | ldargaS
  | stargS
  | ldlocS
  | ldlocaS
  | stlocS
  | ldarg
  | ldarga
  | starg
  | ldloc
  | ldloca
  | stloc
  | ldnull
  | ldcI4M1
  | ldcI4_0
  | ldcI4_1
  | ldcI4_2
  | ldcI4_3
  | ldcI4_4
  | ldcI4_5
  | ldcI4_6
  | ldcI4_7
  | ldcI4_8
  | ldcI4S
  | ldcI4
  | ldcI8
  | ldcR4
  | ldcR8
  | ldstr
  | dup
  | pop
  | jmp
  | call
  | calli
  | callvirt
  | ret
  | brS
  | brfalseS
  | brtrueS
  | beqS
  | bgeS
  | bgtS
  | bleS
  | bltS
  | bneUnS
  | bgeUnS
  | bgtUnS
  | bleUnS
  | bltUnS
  | br
  | brfalse
  | brtrue
  | beq
  | bge
  | bgt
  | ble
  | blt
  | bneUn
  | bgeUn
  | bgtUn
  | bleUn
  | bltUn
  | switch
  | ldindI1
  | ldindU1
  | ldindI2
  | ldindU2
  | ldindI4
  | ldindU4
  | ldindI8
  | ldindI
  | ldindR4
  | ldindR8
  | ldindRef
  | stindRef
  | stindI1
  | stindI2
  | stindI4
  | stindI8
  | stindR4
  | stindR8
  | stindI
  | add
  | sub
  | mul
  | div
  | divUn
  | rem
  | remUn
  | and
  | or
  | xor
  | shl
  | shr
  | shrUn
  | neg
  | not
  | addOvf
  | subOvf
  | mulOvf
  | convI1
  | convI2
  | convI4
  | convI8
  | convR4
  | convR8
  | convU4
  | convU8
  | convU2
  | convU1
  | convI
  | convU
  | convRUn
  | convOvfI4
  | ckfinite
  | cpobj
  | ldobj
  | stobj
  | newobj
  | castclass
  | isinst
  | unbox
  | unboxAny
  | box
  | throw
  | rethrow
  | ldfld
  | ldflda
  | stfld
  | ldsfld
  | ldsflda
  | stsfld
  | newarr
  | ldlen
  | ldelema
  | ldelemI4
  | ldelemRef
  | stelemI4
  | stelemRef
  | ldelem
  | stelem
  | ldtoken
  | endfinally
  | endfilter
  | leave
  | leaveS
  | ceq
  | cgt
  | cgtUn
  | clt
  | cltUn
  | ldftn
  | ldvirtftn
  | localloc
  | initobj
  | sizeof
  | cpblk
  | initblk
  | constrained
  | tail
  | volatile
  deriving DecidableEq

namespace Opcode

/-- Every opcode, in table order. -/
def all : List Opcode :=
  [.nop, .breakpoint, .ldarg0, .ldarg1, .ldarg2, .ldarg3, .ldloc0, .ldloc1, .ldloc2, .ldloc3,
   .stloc0, .stloc1, .stloc2, .stloc3, .ldargS, .ldargaS, .stargS, .ldlocS, .ldlocaS, .stlocS,
   .ldarg, .ldarga, .starg, .ldloc, .ldloca, .stloc, .ldnull, .ldcI4M1, .ldcI4_0, .ldcI4_1,
   .ldcI4_2, .ldcI4_3, .ldcI4_4, .ldcI4_5, .ldcI4_6, .ldcI4_7, .ldcI4_8, .ldcI4S, .ldcI4, .ldcI8,
   .ldcR4, .ldcR8, .ldstr, .dup, .pop, .jmp, .call, .calli, .callvirt, .ret, .brS, .brfalseS,
   .brtrueS, .beqS, .bgeS, .bgtS, .bleS, .bltS, .bneUnS, .bgeUnS, .bgtUnS, .bleUnS, .bltUnS, .br,
   .brfalse, .brtrue, .beq, .bge, .bgt, .ble, .blt, .bneUn, .bgeUn, .bgtUn, .bleUn, .bltUn,
   .switch, .ldindI1, .ldindU1, .ldindI2, .ldindU2, .ldindI4, .ldindU4, .ldindI8, .ldindI,
   .ldindR4, .ldindR8, .ldindRef, .stindRef, .stindI1, .stindI2, .stindI4, .stindI8, .stindR4,
   .stindR8, .stindI, .add, .sub, .mul, .div, .divUn, .rem, .remUn, .and, .or, .xor, .shl, .shr,
   .shrUn, .neg, .not, .addOvf, .subOvf, .mulOvf, .convI1, .convI2, .convI4, .convI8, .convR4,
   .convR8, .convU4, .convU8, .convU2, .convU1, .convI, .convU, .convRUn, .convOvfI4, .ckfinite,
   .cpobj, .ldobj, .stobj, .newobj, .castclass, .isinst, .unbox, .unboxAny, .box, .throw,
   .rethrow, .ldfld, .ldflda, .stfld, .ldsfld, .ldsflda, .stsfld, .newarr, .ldlen, .ldelema,
   .ldelemI4, .ldelemRef, .stelemI4, .stelemRef, .ldelem, .stelem, .ldtoken, .endfinally,
   .endfilter, .leave, .leaveS, .ceq, .cgt, .cgtUn, .clt, .cltUn, .ldftn, .ldvirtftn, .localloc,
   .initobj, .sizeof, .cpblk, .initblk, .constrained, .tail, .volatile]

/-- The name of an opcode in a listing. -/
def mnemonic : Opcode → String
  | .nop => "nop"
  | .breakpoint => "break"
  | .ldarg0 => "ldarg.0"
  | .ldarg1 => "ldarg.1"
  | .ldarg2 => "ldarg.2"
  | .ldarg3 => "ldarg.3"
  | .ldloc0 => "ldloc.0"
  | .ldloc1 => "ldloc.1"
  | .ldloc2 => "ldloc.2"
  | .ldloc3 => "ldloc.3"
  | .stloc0 => "stloc.0"
  | .stloc1 => "stloc.1"
  | .stloc2 => "stloc.2"
  | .stloc3 => "stloc.3"
  | .ldargS => "ldarg.s"
  | .ldargaS => "ldarga.s"
  | .stargS => "starg.s"
  | .ldlocS => "ldloc.s"
  | .ldlocaS => "ldloca.s"
  | .stlocS => "stloc.s"
  | .ldarg => "ldarg"
  | .ldarga => "ldarga"
  | .starg => "starg"
  | .ldloc => "ldloc"
  | .ldloca => "ldloca"
  | .stloc => "stloc"
  | .ldnull => "ldnull"
  | .ldcI4M1 => "ldc.i4.m1"
  | .ldcI4_0 => "ldc.i4.0"
  | .ldcI4_1 => "ldc.i4.1"
  | .ldcI4_2 => "ldc.i4.2"
  | .ldcI4_3 => "ldc.i4.3"
  | .ldcI4_4 => "ldc.i4.4"
  | .ldcI4_5 => "ldc.i4.5"
  | .ldcI4_6 => "ldc.i4.6"
  | .ldcI4_7 => "ldc.i4.7"
  | .ldcI4_8 => "ldc.i4.8"
  | .ldcI4S => "ldc.i4.s"
  | .ldcI4 => "ldc.i4"
  | .ldcI8 => "ldc.i8"
  | .ldcR4 => "ldc.r4"
  | .ldcR8 => "ldc.r8"
  | .ldstr => "ldstr"
  | .dup => "dup"
  | .pop => "pop"
  | .jmp => "jmp"
  | .call => "call"
  | .calli => "calli"
  | .callvirt => "callvirt"
  | .ret => "ret"
  | .brS => "br.s"
  | .brfalseS => "brfalse.s"
  | .brtrueS => "brtrue.s"
  | .beqS => "beq.s"
  | .bgeS => "bge.s"
  | .bgtS => "bgt.s"
  | .bleS => "ble.s"
  | .bltS => "blt.s"
  | .bneUnS => "bne.un.s"
  | .bgeUnS => "bge.un.s"
  | .bgtUnS => "bgt.un.s"
  | .bleUnS => "ble.un.s"
  | .bltUnS => "blt.un.s"
  | .br => "br"
  | .brfalse => "brfalse"
  | .brtrue => "brtrue"
  | .beq => "beq"
  | .bge => "bge"
  | .bgt => "bgt"
  | .ble => "ble"
  | .blt => "blt"
  | .bneUn => "bne.un"
  | .bgeUn => "bge.un"
  | .bgtUn => "bgt.un"
  | .bleUn => "ble.un"
  | .bltUn => "blt.un"
  | .switch => "switch"
  | .ldindI1 => "ldind.i1"
  | .ldindU1 => "ldind.u1"
  | .ldindI2 => "ldind.i2"
  | .ldindU2 => "ldind.u2"
  | .ldindI4 => "ldind.i4"
  | .ldindU4 => "ldind.u4"
  | .ldindI8 => "ldind.i8"
  | .ldindI => "ldind.i"
  | .ldindR4 => "ldind.r4"
  | .ldindR8 => "ldind.r8"
  | .ldindRef => "ldind.ref"
  | .stindRef => "stind.ref"
  | .stindI1 => "stind.i1"
  | .stindI2 => "stind.i2"
  | .stindI4 => "stind.i4"
  | .stindI8 => "stind.i8"
  | .stindR4 => "stind.r4"
  | .stindR8 => "stind.r8"
  | .stindI => "stind.i"
  | .add => "add"
  | .sub => "sub"
  | .mul => "mul"
  | .div => "div"
  | .divUn => "div.un"
  | .rem => "rem"
  | .remUn => "rem.un"
  | .and => "and"
  | .or => "or"
  | .xor => "xor"
  | .shl => "shl"
  | .shr => "shr"
  | .shrUn => "shr.un"
  | .neg => "neg"
  | .not => "not"
  | .addOvf => "add.ovf"
  | .subOvf => "sub.ovf"
  | .mulOvf => "mul.ovf"
  | .convI1 => "conv.i1"
  | .convI2 => "conv.i2"
  | .convI4 => "conv.i4"
  | .convI8 => "conv.i8"
  | .convR4 => "conv.r4"
  | .convR8 => "conv.r8"
  | .convU4 => "conv.u4"
  | .convU8 => "conv.u8"
  | .convU2 => "conv.u2"
  | .convU1 => "conv.u1"
  | .convI => "conv.i"
  | .convU => "conv.u"
  | .convRUn => "conv.r.un"
  | .convOvfI4 => "conv.ovf.i4"
  | .ckfinite => "ckfinite"
  | .cpobj => "cpobj"
  | .ldobj => "ldobj"
  | .stobj => "stobj"
  | .newobj => "newobj"
  | .castclass => "castclass"
  | .isinst => "isinst"
  | .unbox => "unbox"
  | .unboxAny => "unbox.any"
  | .box => "box"
  | .throw => "throw"
  | .rethrow => "rethrow"
  | .ldfld => "ldfld"
  | .ldflda => "ldflda"
  | .stfld => "stfld"
  | .ldsfld => "ldsfld"
  | .ldsflda => "ldsflda"
  | .stsfld => "stsfld"
  | .newarr => "newarr"
  | .ldlen => "ldlen"
  | .ldelema => "ldelema"
  | .ldelemI4 => "ldelem.i4"
  | .ldelemRef => "ldelem.ref"
  | .stelemI4 => "stelem.i4"
  | .stelemRef => "stelem.ref"
  | .ldelem => "ldelem"
  | .stelem => "stelem"
  | .ldtoken => "ldtoken"
  | .endfinally => "endfinally"
  | .endfilter => "endfilter"
  | .leave => "leave"
  | .leaveS => "leave.s"
  | .ceq => "ceq"
  | .cgt => "cgt"
  | .cgtUn => "cgt.un"
  | .clt => "clt"
  | .cltUn => "clt.un"
  | .ldftn => "ldftn"
  | .ldvirtftn => "ldvirtftn"
  | .localloc => "localloc"
  | .initobj => "initobj"
  | .sizeof => "sizeof"
  | .cpblk => "cpblk"
  | .initblk => "initblk"
  | .constrained => "constrained."
  | .tail => "tail."
  | .volatile => "volatile."

def operandKind : Opcode → OperandKind
  | .ldcI4S | .ldcI4 => .int32
  | .ldcI8 => .int64
  | .ldcR4 | .ldcR8 => .float
  | .ldstr => .string
  | .ldargS | .ldargaS | .stargS | .ldarg | .ldarga | .starg => .arg
  | .ldlocS | .ldlocaS | .stlocS | .ldloc | .ldloca | .stloc => .loc
  | .brS | .brfalseS | .brtrueS | .beqS | .bgeS | .bgtS | .bleS | .bltS | .bneUnS | .bgeUnS
  | .bgtUnS | .bleUnS | .bltUnS | .br | .brfalse | .brtrue | .beq | .bge | .bgt | .ble | .blt
  | .bneUn | .bgeUn | .bgtUn | .bleUn | .bltUn | .leave | .leaveS => .target
  | .switch => .targets
  | .jmp | .call | .callvirt | .newobj | .ldftn | .ldvirtftn => .method
  | .ldfld | .ldflda | .stfld | .ldsfld | .ldsflda | .stsfld => .field
  | .cpobj | .ldobj | .stobj | .castclass | .isinst | .unbox | .unboxAny | .box | .newarr
  | .ldelema | .ldelem | .stelem | .ldtoken | .initobj | .sizeof | .constrained => .type
  | .calli => .raw
  | _ => .empty

def ofMnemonic? (word : String) : Option Opcode :=
  all.find? (·.mnemonic == word)

/-- Whether the opcode jumps to its operand inside a structured body. Leaving a protected region
does not count. -/
def isBranch (op : Opcode) : Bool :=
  op.operandKind == .target && op != .leave && op != .leaveS

end Opcode

end CilCompiler
