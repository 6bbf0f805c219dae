/-!
# Type names and signatures

* `TypeName` is a dotted name, cut at its last dot, with the assembly it is looked up in.
* `TypeSig` is a type as it stands in signatures, fields and locals.
* `MethodRef` and `FieldRef` are what a call site or a field access names. Their `fullName` is the
  text under which a method is compiled, exported and imported.
-/

namespace CilCompiler

/-! ## Names -/

/-- A type name, perhaps qualified by an assembly. -/
structure TypeName where
  /-- Where to look the type up; without one, in the assembly being compiled. -/
  assembly : Option String
  qualifier : String
  name : String
  deriving DecidableEq

namespace TypeName

/-- The parts of `cs` before and behind its last `mark`. -/
def splitLast (mark : Char) : List Char → Option (List Char × List Char)
  | [] => none
  | c :: cs =>
    match splitLast mark cs with
    | some (front, back) => some (c :: front, back)
    | none => if c = mark then some ([], cs) else none

/-- Cuts a dotted name at its last dot. -/
def ofDotted (assembly : Option String) (dotted : String) : TypeName :=
  match splitLast '.' dotted.toList with
  | some (qualifier, name) => ⟨assembly, String.ofList qualifier, String.ofList name⟩
  | none => ⟨assembly, "", dotted⟩

def fullName (t : TypeName) : String :=
  if t.qualifier = "" then t.name else t.qualifier ++ "." ++ t.name

/-- The assembly that defines the type, seen from the assembly `home`. -/
def scope (t : TypeName) (home : String) : String :=
  t.assembly.getD home

/-- Whether the name, used in the assembly `home`, means a type of that assembly. -/
def isLocal (t : TypeName) (home : String) : Bool :=
  t.scope home == home

end TypeName

/-! ## Signatures -/

inductive TypeSig
  | void
  | boolean
  | char
  | int8
  | uint8
  | int16
  | uint16
  | int32
  | uint32
  | int64
  | uint64
  | float32
  | float64
  | nativeInt
  | nativeUInt
  | string
  | object
  | classType (name : TypeName)
  | valueType (name : TypeName)
  | array (element : TypeSig)
  deriving DecidableEq

/-- The full name of a type. -/
def TypeSig.text : TypeSig → String
  | .void => "System.Void"
  | .boolean => "System.Boolean"
  | .char => "System.Char"
  | .int8 => "System.SByte"
  | .uint8 => "System.Byte"
  | .int16 => "System.Int16"
  | .uint16 => "System.UInt16"
  | .int32 => "System.Int32"
  | .uint32 => "System.UInt32"
  | .int64 => "System.Int64"
  | .uint64 => "System.UInt64"
  | .float32 => "System.Single"
  | .float64 => "System.Double"
  | .nativeInt => "System.IntPtr"
  | .nativeUInt => "System.UIntPtr"
  | .string => "System.String"
  | .object => "System.Object"
  | .classType name => name.fullName
  | .valueType name => name.fullName
  | .array element => element.text ++ "[]"

/-! ## References -/

structure MethodRef where
  declaring : TypeName
  name : String
  /-- Whether the call passes a receiver. -/
  hasThis : Bool
  result : TypeSig
  params : List TypeSig
  deriving DecidableEq

namespace MethodRef

/-- The canonical text of a method: result, type, name and parameter types. -/
def fullName (m : MethodRef) : String :=
  m.result.text ++ " " ++ m.declaring.fullName ++ "::" ++ m.name ++ "(" ++
    ",".intercalate (m.params.map TypeSig.text) ++ ")"

def isConstructor (m : MethodRef) : Bool :=
  m.name == ".ctor"

end MethodRef

structure FieldRef where
  declaring : TypeName
  name : String
  type : TypeSig
  deriving DecidableEq

def FieldRef.fullName (f : FieldRef) : String :=
  f.type.text ++ " " ++ f.declaring.fullName ++ "::" ++ f.name

end CilCompiler
