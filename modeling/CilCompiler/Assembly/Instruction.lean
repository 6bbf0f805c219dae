import CilCompiler.Assembly.Opcode
import CilCompiler.Assembly.TypeSig
import CilCompiler.Decimal.Layout
import CilCompiler.Text.Quoted

/-!
# Instructions

* `Operand` is a decoded operand, `Operand.kind` its shape.
* `Instruction.text` prints an instruction with its label, as a listing would.
* `Operand.inspect` shows an operand with its constructor, for messages about a wrong shape.
-/

namespace CilCompiler

inductive Operand
  | empty
  | int32 (value : Int32)
  | int64 (value : Int64)
  | float (value : Binary64)
  | string (text : String)
  | arg (index : UInt16)
  | loc (index : UInt16)
  | target (offset : UInt32)
  | targets (offsets : List UInt32)
  | method (ref : MethodRef)
  | field (ref : FieldRef)
  | type (sig : TypeSig)
  | raw (text : String)
  deriving DecidableEq

structure Instruction where
  offset : UInt32
  opcode : Opcode
  operand : Operand
  deriving DecidableEq

namespace Operand

/-- The shape of an operand. -/
def kind : Operand → OperandKind
  | .empty => .empty
  | .int32 _ => .int32
  | .int64 _ => .int64
  | .float _ => .float
  | .string _ => .string
  | .arg _ => .arg
  | .loc _ => .loc
  | .target _ => .target
  | .targets _ => .targets
  | .method _ => .method
  | .field _ => .field
  | .type _ => .type
  | .raw _ => .raw

/-- The text of an operand in a printed instruction. -/
def text : Operand → String
  | .empty => ""
  | .int32 value => toString value.toInt
  | .int64 value => toString value.toInt
  | .float value => Layout.plain.text value
  | .string text => Text.quoted text
  | .arg index => toString index.toNat
  | .loc index => toString index.toNat
  | .target offset => Text.label offset
  | .targets offsets => "(" ++ ", ".intercalate (offsets.map Text.label) ++ ")"
  | .method ref => ref.fullName
  | .field ref => ref.fullName
  | .type sig => sig.text
  | .raw text => text

end Operand

/-- An instruction with its label. An opcode without operand ends the text. -/
def Instruction.text (i : Instruction) : String :=
  let head := Text.label i.offset ++ ": " ++ i.opcode.mnemonic
  match i.operand with
  | .empty => head
  | operand => head ++ " " ++ operand.text

/-! ## Inspection -/

/-- A constructor applied to one value. -/
def inspected (constructor value : String) : String :=
  constructor ++ "(" ++ value ++ ")"

/-- A record with its fields in order. -/
def inspectedRecord (name : String) (fields : List (String × String)) : String :=
  name ++ " \x7b " ++ ", ".intercalate (fields.map fun (key, value) => key ++ ": " ++ value) ++
    " \x7d"

/-- A list between brackets. -/
def inspectedList (items : List String) : String :=
  "[" ++ ", ".intercalate items ++ "]"

def TypeName.inspect (t : TypeName) : String :=
  inspectedRecord "TypeName"
    [("assembly", match t.assembly with
        | some name => inspected "Some" (Text.quoted name)
        | none => "None"),
     ("namespace", Text.quoted t.qualifier),
     ("name", Text.quoted t.name)]

def TypeSig.inspect : TypeSig → String
  | .void => "Void"
  | .boolean => "Boolean"
  | .char => "Char"
  | .int8 => "I1"
  | .uint8 => "U1"
  | .int16 => "I2"
  | .uint16 => "U2"
  | .int32 => "I4"
  | .uint32 => "U4"
  | .int64 => "I8"
  | .uint64 => "U8"
  | .float32 => "R4"
  | .float64 => "R8"
  | .nativeInt => "IntPtr"
  | .nativeUInt => "UIntPtr"
  | .string => "String"
  | .object => "Object"
  | .classType name => inspected "Class" name.inspect
  | .valueType name => inspected "ValueType" name.inspect
  | .array element => inspected "Array" element.inspect

def MethodRef.inspect (m : MethodRef) : String :=
  inspectedRecord "MethodRef"
    [("declaring_type", m.declaring.inspect),
     ("name", Text.quoted m.name),
     ("has_this", if m.hasThis then "true" else "false"),
     ("return_type", m.result.inspect),
     ("params", inspectedList (m.params.map TypeSig.inspect))]

def FieldRef.inspect (f : FieldRef) : String :=
  inspectedRecord "FieldRef"
    [("declaring_type", f.declaring.inspect),
     ("name", Text.quoted f.name),
     ("ty", f.type.inspect)]

def Operand.inspect : Operand → String
  | .empty => "None"
  | .int32 value => inspected "Int32" (toString value.toInt)
  | .int64 value => inspected "Int64" (toString value.toInt)
  | .float value => inspected "Float" (Layout.inspected.text value)
  | .string text => inspected "String" (Text.quoted text)
  | .arg index => inspected "Arg" (toString index.toNat)
  | .loc index => inspected "Local" (toString index.toNat)
  | .target offset => inspected "Target" (toString offset.toNat)
  | .targets offsets =>
    inspected "Targets" (inspectedList (offsets.map fun offset => toString offset.toNat))
  | .method ref => inspected "Method" ref.inspect
  | .field ref => inspected "Field" ref.inspect
  | .type sig => inspected "Type" sig.inspect
  | .raw text => inspected "Raw" (Text.quoted text)

end CilCompiler
