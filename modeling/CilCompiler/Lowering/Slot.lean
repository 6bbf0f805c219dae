/-!
# Slots

The storage of a compiled function is named before it is numbered. A slot is such a name.
-/

namespace CilCompiler

inductive Slot
  /-- A parameter; the receiver is the first one. -/
  | arg (index : UInt16)
  /-- A declared local variable. -/
  | loc (index : UInt16)
  /-- Holds a value while it is duplicated. -/
  | duplicate
  /-- Holds the value on which a switch decides. -/
  | switchValue
  /-- Holds an argument of a constructor while the object is allocated. -/
  | constructorArg (index : UInt16)
  /-- Holds the address of a new object. -/
  | newObject
  /-- Holds where to go on after a jump backwards: 0 is the start of the body, `n + 1` the `n`th
  entry of the schedule. -/
  | resumeSelector
  deriving DecidableEq

def Slot.text : Slot → String
  | .arg index => "arg" ++ toString index.toNat
  | .loc index => "loc" ++ toString index.toNat
  | .duplicate => "dupTemp"
  | .switchValue => "switchValue"
  | .constructorArg index => "ctorparam" ++ toString index.toNat
  | .newObject => "newObjectAddr"
  | .resumeSelector => "jumpTarget"

end CilCompiler
