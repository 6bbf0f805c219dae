import CilCompiler.Host.Bridge

/-!
# Compilation options
-/

namespace CilCompiler

/-- Which methods are exported. -/
inductive ExportPolicy
  | publicOnly
  | all
  | none
  deriving DecidableEq

structure Options where
  /-- The bytes before the first field of an object. -/
  headerSize : UInt32 := 8
  exportPolicy : ExportPolicy := .publicOnly
  /-- The full names of methods that only forward to the host. -/
  interopMethods : List String := []
  bridge : Host.Bridge := {}
  /-- Whether the finished module is checked. -/
  validate : Bool := true
  deriving DecidableEq

namespace Options

def isInterop (o : Options) (fullName : String) : Bool :=
  o.interopMethods.contains fullName

/-- The name under which a method is exported, if it is. -/
def exportName (o : Options) (isPublic : Bool) (fullName : String) : Option String :=
  match o.exportPolicy with
  | .all => some fullName
  | .publicOnly => if isPublic then some fullName else Option.none
  | .none => Option.none

end Options

end CilCompiler
