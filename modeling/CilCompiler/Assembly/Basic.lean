import CilCompiler.Assembly.Instruction

/-!
# Assemblies

An assembly is a named list of types with their fields and methods, in the order of declaration.

* `Assembly.findType` and `Assembly.findMethod` resolve references against it.
* `MethodDef.ref` is the reference under which a method is called.
-/

namespace CilCompiler

structure FieldDef where
  name : String
  type : TypeSig
  isStatic : Bool := false
  /-- The declared byte offset, if there is one. -/
  offset : Option UInt32 := none
  deriving DecidableEq

structure Param where
  name : Option String
  type : TypeSig
  deriving DecidableEq

/-- A protected range of offsets and the range of its handler. -/
structure ExceptionRegion where
  tryStart : UInt32
  tryEnd : UInt32
  handlerStart : UInt32
  handlerEnd : UInt32
  deriving DecidableEq

structure MethodBody where
  locals : List TypeSig := []
  instructions : List Instruction := []
  regions : List ExceptionRegion := []
  deriving DecidableEq

structure MethodDef where
  name : String
  result : TypeSig
  params : List Param
  isPublic : Bool := false
  isStatic : Bool := false
  isVirtual : Bool := false
  /-- Abstract and external methods have no body. -/
  body : Option MethodBody := none
  deriving DecidableEq

structure TypeDef where
  name : TypeName
  isPublic : Bool := false
  /-- Whether the fields are laid out by their declared offsets. -/
  isExplicit : Bool := false
  fields : List FieldDef := []
  methods : List MethodDef := []
  deriving DecidableEq

structure Assembly where
  name : String
  types : List TypeDef
  deriving DecidableEq

namespace MethodDef

def hasThis (m : MethodDef) : Bool := !m.isStatic

/-- The method as a call site in the same assembly names it. -/
def ref (m : MethodDef) (declaring : TypeName) : MethodRef :=
  { declaring := declaring
    name := m.name
    hasThis := m.hasThis
    result := m.result
    params := m.params.map Param.type }

/-- Whether `r` names this method of `declaring`. The receiver is not part of the name. -/
def isNamedBy (m : MethodDef) (declaring : TypeName) (r : MethodRef) : Bool :=
  m.name == r.name && declaring.fullName == r.declaring.fullName && m.result == r.result &&
    m.params.map Param.type == r.params

end MethodDef

/-- The first field of that name. -/
def TypeDef.findField (t : TypeDef) (name : String) : Option FieldDef :=
  t.fields.find? (·.name == name)

namespace Assembly

/-- The first type of that full name, for a name that means this assembly. -/
def findType (a : Assembly) (name : TypeName) : Option TypeDef :=
  if name.isLocal a.name then a.types.find? (·.name.fullName == name.fullName) else none

/-- The method that a reference means, with its type. Only the first type of the name is searched. -/
def findMethod (a : Assembly) (r : MethodRef) : Option (TypeDef × MethodDef) :=
  match a.findType r.declaring with
  | some t => (t.methods.find? (·.isNamedBy t.name r)).map (t, ·)
  | none => none

/-- Every method with its declaring type, in order. -/
def methods (a : Assembly) : List (TypeDef × MethodDef) :=
  a.types.flatMap fun t => t.methods.map (t, ·)

end Assembly

end CilCompiler
